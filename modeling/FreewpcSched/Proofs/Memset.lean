import FreewpcSched.Code.Memset

/-!
# What `memset` writes

Each of the three loops writes `s[0..n)` and nothing else: the byte loop one
address a store, the word loops two, and the four-store round of the
`n % 8 == 0` loop is four rounds of the `n % 2 == 0` loop (`wordLoop4_eq`).
So every path writes exactly the bytes `s[0..n)` (`memset_apply`).

What they write differs. The byte loop writes `c mod 256` everywhere. A word
store writes the low byte of its word, `c mod 256`, at the odd offsets, and
its high byte at the even ones; that byte is bits 0-7 of `c` or-ed with bits
8-15 (`fillWord_high`). The two agree when bits 8-15 of `c` are clear, so for
every `c` in `0..255` all three paths write `c` (`memset_of_lt`), but not in
general.
-/

namespace FreewpcSched

/-! ## One store -/

@[simp] theorem storeByte_apply (mem : Nat → Nat) (p b a : Nat) :
    storeByte mem p b a = if a = p then b else mem a := rfl

theorem storeWord_apply (mem : Nat → Nat) (p w a : Nat) :
    storeWord mem p w a =
      if a = p then w / 256 % 256 else if a = p + 1 then w % 256 else mem a := by
  simp only [storeWord, storeByte_apply]
  by_cases h₁ : a = p + 1
  · rw [if_pos h₁, if_neg (by omega), if_pos h₁]
  · rw [if_neg h₁, if_neg h₁]

/-! ## The loops -/

/-- The byte loop writes `b` at `p, …, p + k - 1`. -/
theorem byteLoop_apply (b : Nat) :
    ∀ k p mem a, byteLoop b k p mem a = if p ≤ a ∧ a < p + k then b else mem a
  | 0, p, mem, a => by rw [byteLoop, if_neg (by omega)]
  | k + 1, p, mem, a => by
    rw [byteLoop, byteLoop_apply b k, storeByte_apply]
    by_cases hp : a = p
    · rw [if_neg (by omega), if_pos hp, if_pos (by omega)]
    · by_cases hin : p + 1 ≤ a ∧ a < p + 1 + k
      · rw [if_pos hin, if_pos (by omega)]
      · rw [if_neg hin, if_neg hp, if_neg (by omega)]

/-- The word loop writes `k` words from `p`: their high bytes at the even
offsets, their low bytes at the odd ones. -/
theorem wordLoop_apply (w : Nat) :
    ∀ k p mem a, wordLoop w k p mem a =
      if p ≤ a ∧ a < p + 2 * k then (if (a - p) % 2 = 0 then w / 256 % 256 else w % 256)
      else mem a
  | 0, p, mem, a => by rw [wordLoop, if_neg (by omega)]
  | k + 1, p, mem, a => by
    rw [wordLoop, wordLoop_apply w k, storeWord_apply]
    by_cases hin : p + 2 ≤ a ∧ a < p + 2 + 2 * k
    · rw [if_pos hin, if_pos (show p ≤ a ∧ a < p + 2 * (k + 1) by omega),
        show (a - (p + 2)) % 2 = (a - p) % 2 by omega]
    · rw [if_neg hin]
      by_cases hp : a = p
      · rw [if_pos hp, if_pos (by omega), if_pos (by omega)]
      · by_cases hp1 : a = p + 1
        · rw [if_neg hp, if_pos hp1, if_pos (by omega), if_neg (by omega)]
        · rw [if_neg hp, if_neg hp1, if_neg (by omega)]

/-- A round of four word stores is four rounds of the word loop. -/
theorem wordLoop4_eq (w : Nat) : ∀ k p mem, wordLoop4 w k p mem = wordLoop w (4 * k) p mem
  | 0, _, _ => rfl
  | k + 1, p, mem => by rw [wordLoop4, wordLoop4_eq w k]; rfl

/-- `memset (s, c, n)` writes exactly `s[0..n)`: on a length that is even, the
high byte of the word at the even offsets and its low byte at the odd ones;
on an odd length, `c & 0xFF` everywhere. It returns `s`. -/
theorem memset_apply (mem : Nat → Nat) (s : Nat) (c : Int) (n a : Nat) :
    (memset mem s c n).1 a =
      if s ≤ a ∧ a < s + n then
        (if n % 2 = 0 then
          (if (a - s) % 2 = 0 then fillWord c / 256 % 256 else fillWord c % 256)
        else fillByte c)
      else mem a := by
  unfold memset
  dsimp only
  by_cases h8 : n % 8 = 0
  · rw [if_pos h8, wordLoop4_eq, wordLoop_apply, show s + 2 * (4 * (n / 8)) = s + n by omega,
      if_pos (show n % 2 = 0 by omega)]
  · rw [if_neg h8]
    by_cases h2 : n % 2 = 0
    · rw [if_pos h2, wordLoop_apply, if_pos h2, show s + 2 * (n / 2) = s + n by omega]
    · rw [if_neg h2, byteLoop_apply, if_neg h2]

/-! ## The bytes of the word -/

/-- The low byte of the word is `c & 0xFF`. -/
theorem fillWord_low (c : Int) : fillWord c % 256 = fillByte c := by
  have hx : fillByte c = (c % 65536).toNat % 256 := by unfold fillByte; omega
  rw [hx, fillWord]
  generalize (c % 65536).toNat = x
  apply Nat.eq_of_testBit_eq; intro i
  rw [show (65536 : Nat) = 2 ^ 16 by rfl, show (256 : Nat) = 2 ^ 8 by rfl]
  simp only [Nat.testBit_mod_two_pow, Nat.testBit_or, Nat.testBit_shiftLeft]
  by_cases hi : i < 8
  · simp [hi, show i < 16 by omega, show ¬ i ≥ 8 by omega]
  · simp [hi]

/-- The high byte of the word is bits 0-7 of `c` or-ed with bits 8-15. -/
theorem fillWord_high (c : Int) :
    fillWord c / 256 % 256 = fillByte c ||| (c % 65536).toNat / 256 := by
  have hx : fillByte c = (c % 65536).toNat % 256 := by unfold fillByte; omega
  have hlt : (c % 65536).toNat < 2 ^ 16 := by omega
  rw [hx, fillWord]
  generalize (c % 65536).toNat = x at hlt
  apply Nat.eq_of_testBit_eq; intro i
  rw [show (65536 : Nat) = 2 ^ 16 by rfl, show (256 : Nat) = 2 ^ 8 by rfl,
    ← Nat.shiftRight_eq_div_pow, ← Nat.shiftRight_eq_div_pow]
  simp only [Nat.testBit_mod_two_pow, Nat.testBit_or, Nat.testBit_shiftLeft,
    Nat.testBit_shiftRight]
  by_cases hi : i < 8
  · simp [hi, show 8 + i < 16 by omega, show 8 + i ≥ 8 by omega, Nat.add_sub_cancel_left]
  · have : x.testBit (8 + i) = false := Nat.testBit_lt_two_pow
      (lt_of_lt_of_le hlt (Nat.pow_le_pow_right (by omega) (by omega)))
    simp [hi, this]

/-- For `c` in `0..255` every path writes `c` at each byte of `s[0..n)`. -/
theorem memset_of_lt (mem : Nat → Nat) (s : Nat) {c : Int} (h₀ : 0 ≤ c) (h₁ : c < 256)
    (n a : Nat) :
    (memset mem s c n).1 a = if s ≤ a ∧ a < s + n then c.toNat else mem a := by
  have hb : fillByte c = c.toNat := by unfold fillByte; omega
  have hhi : (c % 65536).toNat / 256 = 0 := by omega
  rw [memset_apply, fillWord_high, fillWord_low, hhi, Nat.or_zero, hb]
  split_ifs <;> rfl

/-- The word paths write bit 8 of `c` into the high byte: `memset (s, 256, n)`
writes `1` at `s[0]` when `n` is 2 or 8, where the byte path, for `n = 3`,
writes `256 & 0xFF = 0`. -/
theorem memset_word_paths_high_byte (mem : Nat → Nat) (s : Nat) :
    (memset mem s 256 2).1 s = 1 ∧ (memset mem s 256 8).1 s = 1 ∧
      (memset mem s 256 3).1 s = 0 := by
  refine ⟨?_, ?_, ?_⟩ <;> rw [memset_apply, if_pos (by omega), Nat.sub_self] <;> decide

end FreewpcSched
