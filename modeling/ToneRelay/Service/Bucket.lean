/-!
# The rate limit

One bucket of tokens for all requests. A request takes a token, and the bucket regains one token in
each period until it is full; a request that finds none is turned away. Main statements:
`tokens_of_full`, `take_of_pos` and `tokens_take_add`.
-/

namespace ToneRelay.Service

/-- A bucket of tokens. Times are in nanoseconds. -/
structure Bucket where
  burst : Nat
  period : Nat
  /-- The time at which the bucket is full again. -/
  fullAt : Nat := 0
  burst_pos : 0 < burst
  period_pos : 0 < period

namespace Bucket

/-- A minute in milliseconds. -/
def minuteMillis : Nat := 60000

/-- The number of requests in a minute, which is one at least. -/
def perMinute (limit : UInt32) : Nat := max limit.toNat 1

/-- The milliseconds between two tokens. -/
def periodMillis (limit : UInt32) : Nat := max (minuteMillis / perMinute limit) 1

/-- The full bucket for a number of requests in a minute. -/
def ofLimit (limit : UInt32) : Bucket where
  burst := perMinute limit
  period := periodMillis limit * 1000000
  burst_pos := by simp only [perMinute]; omega
  period_pos := by simp only [periodMillis]; omega

/-- The tokens in the bucket: one is missing for each period begun until it is full. -/
def tokens (b : Bucket) (now : Nat) : Nat :=
  b.burst - (b.fullAt - now + b.period - 1) / b.period

/-- Takes a token, if there is one. -/
def take (b : Bucket) (now : Nat) : Option Bucket :=
  if 0 < b.tokens now then some { b with fullAt := max b.fullAt now + b.period } else none

theorem tokens_of_full {b : Bucket} {now : Nat} (h : b.fullAt ≤ now) : b.tokens now = b.burst := by
  have hzero : (b.fullAt - now + b.period - 1) / b.period = 0 := by
    apply Nat.div_eq_of_lt
    have := b.period_pos
    omega
  simp [tokens, hzero]

theorem take_of_pos {b : Bucket} {now : Nat} (h : 0 < b.tokens now) :
    b.take now = some { b with fullAt := max b.fullAt now + b.period } := by
  unfold take
  rw [if_pos h]

theorem take_of_empty {b : Bucket} {now : Nat} (h : b.tokens now = 0) : b.take now = none := by
  unfold take
  rw [if_neg (Nat.not_lt_of_le (Nat.le_of_eq h))]

/-- A request takes one token. -/
theorem tokens_take_add {b b' : Bucket} {now : Nat} (h : b.take now = some b') :
    b'.tokens now + 1 = b.tokens now := by
  rcases Nat.eq_zero_or_pos (b.tokens now) with hempty | hpos
  · rw [take_of_empty hempty] at h
    cases h
  · rw [take_of_pos hpos] at h
    cases h
    have heq : max b.fullAt now + b.period - now + b.period - 1 =
        (b.fullAt - now + b.period - 1) + b.period := by omega
    simp only [tokens, heq, Nat.add_div_right _ b.period_pos] at hpos ⊢
    omega

end Bucket

end ToneRelay.Service
