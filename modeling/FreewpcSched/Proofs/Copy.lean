import FreewpcSched.Code.Copy
import FreewpcSched.Proofs.Memset

/-!
# What the copy and block routines write

`memmove` is meant to copy `s2[0..n)` to `s1[0..n)` as through a temporary
buffer (`moveSpec`). The `memcpy` it calls stores the byte at `s1 + i` from
`s2 + i` after it has stored `s1[0..i)`, so it copies as through a buffer
exactly when none of the bytes it reads is one it stored before: when the
destination starts at or below the source, or after its end
(`copyLoop_eq_moveSpec`). Otherwise the source starts `d = s1 - s2 < n`
bytes below the destination, every byte from `s1 + d` on reads a byte the
loop stored `d` moves earlier, and the copy repeats the first `d` bytes of
the source over the whole destination (`memcpy_overlap`). So `memmove`
refines `moveSpec` on exactly the arguments without that overlap
(`memmove_eq_moveSpec_iff`), which is what the `TODO` in the source says.

The block routines stop only when `n -= 16`, on 32 bits, leaves zero. On a
positive multiple of 16 that takes `n / 16` rounds, and they clear, or copy,
exactly `n` bytes. On zero the first subtraction wraps, and they run `2^28`
rounds over `2^32` bytes (`blockBytes`), far past the 64 KiB the 6809
addresses, so what they write then is left out. On any other `n` the remainder
modulo 16 survives every subtraction and they never return
(`block16_never_returns`).
-/

namespace FreewpcSched

/-- `memmove`'s meaning: `s1[0..n)` receives the bytes `s2[0..n)` held
before the call, as through a temporary buffer; every other byte is kept. -/
def moveSpec (mem : Nat → Nat) (s1 s2 n : Nat) : Nat → Nat :=
  fun a => if s1 ≤ a ∧ a < s1 + n then mem (s2 + (a - s1)) else mem a

/-! ## The byte loop -/

theorem copyLoop_add : ∀ (i j p q : Nat) (mem : Nat → Nat),
    copyLoop (i + j) p q mem = copyLoop j (p + i) (q + i) (copyLoop i p q mem)
  | 0, _, _, _, _ => by rw [Nat.zero_add]; rfl
  | i + 1, j, p, q, mem => by
    rw [show i + 1 + j = (i + j) + 1 by omega]
    simp only [copyLoop]
    rw [copyLoop_add i j, show p + 1 + i = p + (i + 1) by omega,
      show q + 1 + i = q + (i + 1) by omega]

/-- The loop stores nothing outside `p[0..k)`. -/
theorem copyLoop_frame : ∀ (k p q : Nat) (mem : Nat → Nat) (a : Nat), (a < p ∨ p + k ≤ a) →
    copyLoop k p q mem a = mem a
  | 0, _, _, _, _, _ => rfl
  | k + 1, p, q, mem, a, h => by
    rw [copyLoop, copyLoop_frame k (p + 1) (q + 1) _ a (by omega), storeByte_apply,
      if_neg (by omega)]

/-- The byte stored at `p + i` is the one the loop reads at `q + i`, after
its first `i` moves. -/
theorem copyLoop_at {k i : Nat} (hi : i < k) (p q : Nat) (mem : Nat → Nat) :
    copyLoop k p q mem (p + i) = copyLoop i p q mem (q + i) := by
  obtain ⟨j, rfl⟩ : ∃ j, k = i + (j + 1) := ⟨k - i - 1, by omega⟩
  rw [copyLoop_add, copyLoop, copyLoop_frame j _ _ _ _ (by omega), storeByte_apply, if_pos rfl]

/-- What the first `i` moves stored below `p + i` stays. -/
theorem copyLoop_prefix {k i : Nat} (hi : i ≤ k) (p q : Nat) (mem : Nat → Nat) {a : Nat}
    (ha : a < p + i) : copyLoop i p q mem a = copyLoop k p q mem a := by
  obtain ⟨j, rfl⟩ : ∃ j, k = i + j := ⟨k - i, by omega⟩
  rw [copyLoop_add, copyLoop_frame j _ _ _ _ (.inl ha)]

/-- Without a byte read after it was stored, the loop is the copy through a
temporary buffer. -/
theorem copyLoop_eq_moveSpec {k p q : Nat} (h : p ≤ q ∨ q + k ≤ p) (mem : Nat → Nat) :
    copyLoop k p q mem = moveSpec mem p q k := by
  funext a
  unfold moveSpec
  split_ifs with ha
  · obtain ⟨i, rfl⟩ : ∃ i, a = p + i := ⟨a - p, by omega⟩
    rw [copyLoop_at (by omega), copyLoop_frame _ _ _ _ _ (by omega), Nat.add_sub_cancel_left]
  · exact copyLoop_frame _ _ _ _ _ (by omega)

/-- With the source `d = p - q` bytes below the destination, each byte from
`p + d` on is read after it was stored, `d` moves earlier: the loop repeats
the first `d` source bytes over the destination. -/
theorem copyLoop_overlap {k p q : Nat} (hqp : q < p) (mem : Nat → Nat) :
    ∀ i < k, copyLoop k p q mem (p + i) = mem (q + i % (p - q)) := by
  intro i
  induction i using Nat.strong_induction_on with
  | _ i ih =>
    intro hi
    rw [copyLoop_at hi]
    by_cases hd : i < p - q
    · rw [copyLoop_frame _ _ _ _ _ (by omega), Nat.mod_eq_of_lt hd]
    · rw [show q + i = p + (i - (p - q)) by omega,
        copyLoop_prefix (Nat.le_of_lt hi) _ _ _ (by omega),
        ih _ (by omega) (by omega), Nat.mod_eq_sub_mod (by omega : i ≥ p - q)]

/-- `memcpy (s1, s2, n)` with the source below the destination: every byte
of `s1[0..n)` is a byte of `s2[0..s1 - s2)`, repeated. -/
theorem memcpy_overlap {s1 s2 n i : Nat} (h : s2 < s1) (hi : i < n) (mem : Nat → Nat) :
    (memcpy mem s1 s2 n).1 (s1 + i) = mem (s2 + i % (s1 - s2)) :=
  copyLoop_overlap h mem i hi

theorem memcpy_overlap_three :
    (memcpy (fun a => a) 1 0 3).1 (1 + 2) = (fun a => a) (0 + 2 % (1 - 0)) :=
  memcpy_overlap (by decide) (by decide) _

/-- `memmove (s1, s2, n)` copies as through a temporary buffer, whatever
the memory holds, exactly when the destination does not start inside the
source above its first byte. -/
theorem memmove_eq_moveSpec_iff (s1 s2 n : Nat) :
    (∀ mem, (memmove mem s1 s2 n).1 = moveSpec mem s1 s2 n) ↔ s1 ≤ s2 ∨ s2 + n ≤ s1 := by
  refine ⟨fun h => ?_, fun h mem => copyLoop_eq_moveSpec h mem⟩
  by_contra hov
  -- a memory whose one non-zero byte is the first of the source
  have hd := congrFun (h fun a => if a = s2 then 1 else 0) (s1 + (s1 - s2))
  simp only [memmove, memcpy] at hd
  rw [copyLoop_overlap (by omega) _ _ (by omega), Nat.mod_self, moveSpec,
    if_pos (by omega), if_pos (by omega), if_neg (by omega)] at hd
  exact Nat.one_ne_zero hd

/-! ## The block loops -/

/-- The bytes a block routine moves for a multiple `n` of 16: `n` itself,
and `2^32` for `n = 0`, where the first `n -= 16` wraps. -/
def blockBytes (n : Nat) : Nat := if n = 0 then 2 ^ 32 else n

theorem wordMoves_add (move : (Nat → Nat) → Nat → Nat → Nat → Nat) :
    ∀ (i j p q : Nat) (mem : Nat → Nat),
      wordMoves move (i + j) p q mem =
        wordMoves move j (p + 2 * i) (q + 2 * i) (wordMoves move i p q mem)
  | 0, _, _, _, _ => by rw [Nat.zero_add]; rfl
  | i + 1, j, p, q, mem => by
    rw [show i + 1 + j = (i + j) + 1 by omega]
    simp only [wordMoves]
    rw [wordMoves_add move i j, show p + 2 + 2 * i = p + 2 * (i + 1) by omega,
      show q + 2 + 2 * i = q + 2 * (i + 1) by omega]

theorem sub16_mod (n : Nat) : sub16 n % 16 = n % 16 := by
  unfold sub16; omega

theorem sub16_lt (n : Nat) : sub16 n < 2 ^ 32 := Nat.mod_lt _ (Nat.two_pow_pos 32)

/-- On `16 * (r + 1)` bytes the loop runs `r + 1` rounds of eight moves. -/
theorem block16_mul (move : (Nat → Nat) → Nat → Nat → Nat → Nat) :
    ∀ (r fuel : Nat) (mem : Nat → Nat) (p q : Nat), 16 * (r + 1) < 2 ^ 32 → r < fuel →
      block16 move fuel mem p q (16 * (r + 1)) = some (wordMoves move (8 * (r + 1)) p q mem)
  | _, 0, _, _, _, _, h => absurd h (Nat.not_lt_zero _)
  | 0, fuel + 1, mem, p, q, _, _ => by
    simp only [block16]
    rw [if_neg (by unfold sub16; omega)]
  | r + 1, fuel + 1, mem, p, q, hn, hr => by
    simp only [block16]
    rw [if_pos (by unfold sub16; omega), show sub16 (16 * (r + 1 + 1)) = 16 * (r + 1) by
      unfold sub16; omega, block16_mul move r fuel _ _ _ (by omega) (by omega),
      show 8 * (r + 1 + 1) = 8 + 8 * (r + 1) by omega, wordMoves_add]

/-- On a multiple of 16 below `2^32`, and enough rounds, the loop stops after
`blockBytes n / 16` rounds, having made `blockBytes n / 2` moves. -/
theorem block16_eq (move : (Nat → Nat) → Nat → Nat → Nat → Nat) {n fuel : Nat}
    (h16 : n % 16 = 0) (hn : n < 2 ^ 32) (hfuel : blockBytes n ≤ 16 * fuel) (mem : Nat → Nat)
    (p q : Nat) :
    block16 move fuel mem p q n = some (wordMoves move (blockBytes n / 2) p q mem) := by
  unfold blockBytes at hfuel ⊢
  split_ifs at hfuel ⊢ with h0
  · -- `n = 0`: the first round leaves `2^32 - 16`
    subst h0
    obtain ⟨fuel, rfl⟩ : ∃ f, fuel = f + 1 := ⟨fuel - 1, by omega⟩
    simp only [block16]
    rw [if_pos (by decide), show sub16 0 = 16 * (2 ^ 28 - 2 + 1) by decide,
      block16_mul move _ _ _ _ _ (by decide) (by omega),
      show 2 ^ 32 / 2 = 8 + 8 * (2 ^ 28 - 2 + 1) by decide, wordMoves_add]
  · obtain ⟨r, rfl⟩ : ∃ r, n = 16 * (r + 1) := ⟨n / 16 - 1, by omega⟩
    rw [block16_mul move r fuel mem p q hn (by omega), show 16 * (r + 1) / 2 = 8 * (r + 1) by omega]

/-- On any other length the remainder modulo 16 survives every `n -= 16`,
and the loop never stops. -/
theorem block16_none (move : (Nat → Nat) → Nat → Nat → Nat → Nat) :
    ∀ (fuel : Nat) (mem : Nat → Nat) (p q n : Nat), n % 16 ≠ 0 → n < 2 ^ 32 →
      block16 move fuel mem p q n = none
  | 0, _, _, _, _, _, _ => rfl
  | fuel + 1, mem, p, q, n, h16, hn => by
    simp only [block16]
    rw [if_pos (by unfold sub16; omega),
      block16_none move fuel _ _ _ _ (by rw [sub16_mod]; exact h16) (sub16_lt n)]

/-- Clearing words is the `n % 2 == 0` loop of `memset` with the word `0`. -/
theorem wordMoves_clearWord : ∀ (k p q : Nat) (mem : Nat → Nat),
    wordMoves clearWord k p q mem = wordLoop 0 k p mem
  | 0, _, _, _ => rfl
  | k + 1, p, q, _ => wordMoves_clearWord k (p + 2) (q + 2) _

/-- Copying words without overlap is copying their bytes in order. -/
theorem wordMoves_copyWord : ∀ (k p q : Nat), (p ≤ q ∨ q + 2 * k ≤ p) → ∀ mem : Nat → Nat,
    wordMoves copyWord k p q mem = copyLoop (2 * k) p q mem
  | 0, _, _, _, _ => rfl
  | k + 1, p, q, h, mem => by
    have hq : q + 1 ≠ p := by omega
    have hmove : copyWord mem p q = copyLoop 2 p q mem := by
      funext a
      simp only [copyWord, copyLoop, storeByte_apply, if_neg hq]
    rw [wordMoves, wordMoves_copyWord k (p + 2) (q + 2) (by omega),
      show 2 * (k + 1) = 2 + 2 * k by omega, copyLoop_add 2, hmove]

/-- `__blockclear16 (s1, n)` on a positive multiple of 16 clears `s1[0..n)`,
given the rounds that takes. On `n = 0` the first `n -= 16` wraps and the
loop runs over `2^32` bytes, past the 64 KiB the 6809 addresses; the flat
memory of this model does not describe that, and it is left out. -/
theorem blockclear16_apply {n fuel : Nat} (h16 : n % 16 = 0) (hpos : 0 < n) (hn : n < 2 ^ 32)
    (hfuel : n ≤ 16 * fuel) (mem : Nat → Nat) (s1 : Nat) :
    blockclear16 fuel mem s1 n = some fun a => if s1 ≤ a ∧ a < s1 + n then 0 else mem a := by
  have hb : blockBytes n = n := if_neg (Nat.pos_iff_ne_zero.1 hpos)
  rw [blockclear16, block16_eq clearWord h16 hn (by rw [hb]; exact hfuel), wordMoves_clearWord, hb]
  congr 1
  funext a
  rw [wordLoop_apply, show 2 * (n / 2) = n by omega]
  split_ifs <;> rfl

theorem blockclear16_thirty_two :
    blockclear16 2 (fun a => a) 0 32 = some fun a => if 0 ≤ a ∧ a < 0 + 32 then 0 else a :=
  blockclear16_apply (by decide) (by decide) (by decide) (by decide) (fun a => a) 0

/-- `__blockcopy16 (s1, s2, n)` on a positive multiple of 16 copies `s2[0..n)`
to `s1[0..n)` as through a temporary buffer, when the destination does not
start inside the source above its first byte. -/
theorem blockcopy16_apply {n fuel s1 s2 : Nat} (h16 : n % 16 = 0) (hpos : 0 < n)
    (hn : n < 2 ^ 32) (hfuel : n ≤ 16 * fuel) (hov : s1 ≤ s2 ∨ s2 + n ≤ s1)
    (mem : Nat → Nat) :
    blockcopy16 fuel mem s1 s2 n = some (moveSpec mem s1 s2 n) := by
  have hb : blockBytes n = n := if_neg (Nat.pos_iff_ne_zero.1 hpos)
  rw [blockcopy16, block16_eq copyWord h16 hn (by rw [hb]; exact hfuel), wordMoves_copyWord _ _ _ (by omega),
    hb, show 2 * (n / 2) = n by omega, copyLoop_eq_moveSpec hov]

theorem blockcopy16_thirty_two :
    blockcopy16 2 (fun a => a) 100 0 32 = some (moveSpec (fun a => a) 100 0 32) :=
  blockcopy16_apply (by decide) (by decide) (by decide) (by decide) (by decide) (fun a => a)

/-- On a length that is not a multiple of 16, neither block routine ever
returns. -/
theorem block16_never_returns {n : Nat} (h16 : n % 16 ≠ 0) (hn : n < 2 ^ 32) (fuel : Nat)
    (mem : Nat → Nat) (s1 s2 : Nat) :
    blockclear16 fuel mem s1 n = none ∧ blockcopy16 fuel mem s1 s2 n = none :=
  ⟨block16_none _ _ _ _ _ _ h16 hn, block16_none _ _ _ _ _ _ h16 hn⟩

theorem block16_never_returns_eight :
    blockclear16 5 (fun a => a) 0 8 = none ∧ blockcopy16 5 (fun a => a) 0 64 8 = none :=
  block16_never_returns (by decide) (by decide) 5 (fun a => a) 0 64

/-- On a positive multiple of 16 the block routines do what the plain
routines do: `__blockclear16 (s1, n)` what `memset (s1, 0, n)` does, through
its `n % 8 == 0` loop, and `__blockcopy16 (s1, s2, n)` what
`memcpy (s1, s2, n)` does, when the destination does not start inside the
source above its first byte. -/
theorem block16_eq_memset_memcpy {n fuel s1 s2 : Nat} (h16 : n % 16 = 0) (hpos : 0 < n)
    (hn : n < 2 ^ 32) (hfuel : n ≤ 16 * fuel) (mem : Nat → Nat) :
    blockclear16 fuel mem s1 n = some (memset mem s1 0 n).1 ∧
      (s1 ≤ s2 ∨ s2 + n ≤ s1 → blockcopy16 fuel mem s1 s2 n = some (memcpy mem s1 s2 n).1) := by
  have hb : blockBytes n = n := if_neg (Nat.pos_iff_ne_zero.1 hpos)
  have hfuel' : blockBytes n ≤ 16 * fuel := by rw [hb]; exact hfuel
  refine ⟨?_, fun hov => ?_⟩
  · rw [blockclear16, block16_eq clearWord h16 hn hfuel', wordMoves_clearWord, hb, memset,
      if_pos (by omega), wordLoop4_eq, show 4 * (n / 8) = n / 2 by omega]
    rfl
  · rw [blockcopy16, block16_eq copyWord h16 hn hfuel', wordMoves_copyWord _ _ _ (by omega), hb,
      show 2 * (n / 2) = n by omega]
    rfl

theorem block16_eq_memset_memcpy_thirty_two :
    blockclear16 2 (fun a => a) 100 32 = some (memset (fun a => a) 100 0 32).1 ∧
      (100 ≤ 0 ∨ 0 + 32 ≤ 100 →
        blockcopy16 2 (fun a => a) 100 0 32 = some (memcpy (fun a => a) 100 0 32).1) :=
  block16_eq_memset_memcpy (by decide) (by decide) (by decide) (by decide) (fun a => a)

/-! ## `strlen` -/

/-- `strlen` counts the bytes before the first zero byte, given the bytes to
read. -/
theorem strlenLoop_eq {mem : Nat → Nat} :
    ∀ {k fuel s len : Nat}, (∀ i < k, mem (s + i) ≠ 0) → mem (s + k) = 0 → k < fuel →
      strlenLoop fuel mem s len = some (len + k)
  | _, 0, _, _, _, _, h => absurd h (Nat.not_lt_zero _)
  | 0, fuel + 1, s, len, _, h0, _ => by rw [strlenLoop, if_neg (by simpa using h0)]; rfl
  | k + 1, fuel + 1, s, len, hne, h0, hk => by
    rw [strlenLoop, if_pos (by simpa using hne 0 (by omega)),
      @strlenLoop_eq mem k fuel (s + 1) (len + 1)
        (fun i hi => by rw [Nat.add_right_comm]; exact hne (i + 1) (by omega))
        (by rw [Nat.add_right_comm]; exact h0) (by omega), Nat.add_assoc, Nat.add_comm 1 k]

theorem strlen_eq {mem : Nat → Nat} {k fuel s : Nat} (hne : ∀ i < k, mem (s + i) ≠ 0)
    (h0 : mem (s + k) = 0) (hk : k < fuel) : strlen fuel mem s = some k := by
  rw [strlen, strlenLoop_eq hne h0 hk, Nat.zero_add]

end FreewpcSched
