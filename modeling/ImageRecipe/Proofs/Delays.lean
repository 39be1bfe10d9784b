import Mathlib.Algebra.Group.Nat.Defs
import Mathlib.Order.MinMax
import ImageRecipe.Backoff

/-! The delays between attempts are computed with numbers of 64 bits that stop at the greatest of them. As no delay is
greater than the limit that is set, and the limit is such a number itself, the delays are those that numbers without
bounds give. -/

namespace ImageRecipe

theorem saturatedPower_eq_min (base exponent : Nat) :
    saturatedPower base exponent = min (base ^ exponent) (Text.limit64 - 1) := by
  unfold saturatedPower
  split
  · next hbase =>
    rcases Nat.le_one_iff_eq_zero_or_eq_one.1 hbase with rfl | rfl <;>
    · rcases exponent.eq_zero_or_pos with rfl | hpos
      · simp [Text.limit64]
      · simp [Text.limit64, hpos.ne', Nat.zero_pow hpos]
  · next hbase =>
    split
    · next hlarge =>
      have hpower : Text.limit64 ≤ base ^ exponent := calc
        Text.limit64 = 2 ^ 64 := by decide
        _ ≤ base ^ 64 := Nat.pow_le_pow_left (by omega) 64
        _ ≤ base ^ exponent := Nat.pow_le_pow_right (by omega) hlarge
      omega
    · rfl

/-- A product that stops at a bound, of a factor that stopped there, is the product of the whole factor as far as a
limit goes that the bound does not exceed. -/
theorem min_mul_min {a p bound limit : Nat} (h : limit ≤ bound) :
    min (min (a * min p bound) bound) limit = min limit (a * p) := by
  rcases Nat.le_total p bound with hp | hp
  · rw [Nat.min_eq_left hp]
    omega
  · rw [Nat.min_eq_right hp]
    rcases a.eq_zero_or_pos with rfl | ha
    · simp
    · have hbound : bound ≤ a * bound := Nat.le_mul_of_pos_left bound ha
      have hproduct : p ≤ a * p := Nat.le_mul_of_pos_left p ha
      omega

namespace Backoff

variable {b : Backoff}

/-- The delays are those of numbers without bounds. -/
theorem delay_eq (h : b.maxDelay < Text.limit64) (attempt : Nat) :
    b.delay attempt = min b.maxDelay (b.initialDelay * b.multiplier ^ attempt) := by
  unfold delay
  rw [saturatedPower_eq_min]
  exact min_mul_min (Nat.le_sub_one_of_lt h)

theorem delay_le_maxDelay (b : Backoff) (attempt : Nat) : b.delay attempt ≤ b.maxDelay := Nat.min_le_right ..

/-- Delays never get shorter from one attempt to a later one, unless they are multiplied by zero. -/
theorem monotone_delay (h : b.maxDelay < Text.limit64) (hm : 1 ≤ b.multiplier) : Monotone b.delay := by
  intro i j hij
  have hpower : b.multiplier ^ i ≤ b.multiplier ^ j := Nat.pow_le_pow_right hm hij
  rw [delay_eq h, delay_eq h]
  exact min_le_min_left _ (Nat.mul_le_mul_left _ hpower)

/-- Whatever the first delay, the multiplier and the index of the attempt are, the delay after it is the first one
multiplied so many times, with no bound to the numbers in between, or the greatest delay that is allowed if that is
less. It never exceeds the greatest one, and unless the multiplier is zero it never gets shorter. -/
theorem delay_exact (b : Backoff) (h : b.maxDelay < Text.limit64) (attempt : Nat) :
    b.delay attempt = min b.maxDelay (b.initialDelay * b.multiplier ^ attempt) ∧
      b.delay attempt ≤ b.maxDelay ∧ (1 ≤ b.multiplier → Monotone b.delay) :=
  ⟨delay_eq h attempt, b.delay_le_maxDelay attempt, monotone_delay h⟩

/-- The power is beyond 64 bits here, and the greatest delay is the greatest number that they hold. -/
theorem delay_exact_sample :
    (18446744073709551615 < Text.limit64 ∧ 1 ≤ 3) ∧
      Backoff.delay ⟨3, 0, 3, 18446744073709551615⟩ 64 = min 18446744073709551615 (0 * 3 ^ 64) ∧
      Backoff.delay ⟨3, 7, 3, 18446744073709551615⟩ 64 = min 18446744073709551615 (7 * 3 ^ 64) ∧
      Backoff.delay ⟨3, 7, 3, 18446744073709551615⟩ 64 ≤ 18446744073709551615 ∧
      Monotone (Backoff.delay ⟨3, 7, 3, 18446744073709551615⟩) := by
  obtain ⟨hzero, -⟩ := delay_exact ⟨3, 0, 3, 18446744073709551615⟩ (by decide) 64
  obtain ⟨hseven, hle, hmono⟩ := delay_exact ⟨3, 7, 3, 18446744073709551615⟩ (by decide) 64
  exact ⟨⟨by decide, by decide⟩, hzero, hseven, hle, hmono (by decide)⟩

end Backoff

end ImageRecipe
