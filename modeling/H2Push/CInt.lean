import Mathlib.Tactic.Ring
import Mathlib.Tactic.Linarith

/-!
# H2Push — the `int` arithmetic of `h2_push.c`

`ceil_power_of_2` rounds three numbers up to a power of two: the configured diary size
(`diary_create`), a diary's entry count and the digest's `maxP`
(`h2_push_diary_digest_get`). `h2_log2` then turns the power into the exponent that the
digest header carries.

Both work on `apr_int32_t`. The model keeps that range: an `int` result outside
`[-2^31, 2^31)` is signed overflow, undefined behaviour in C, and is modelled as `none`.
The shifts of `ceil_power_of_2` act on the non-negative `n - 1`, where C's `>>` on `int`
is `Nat.shiftRight`, so the smearing is written over `Nat`.

The crux is `smear_eq`: the five `n |= n >> k` steps set every bit below the highest one,
for every `n < 2^32`. It is proved on bits (`Smeared`), by tracking how many bits below
the top are already set after each step.
-/

namespace H2

/-- An `int` result: defined only inside `[-2^31, 2^31)`. -/
def int32 (x : Int) : Option Int :=
  if -2 ^ 31 ≤ x ∧ x < 2 ^ 31 then some x else none

/-- The bit smearing of `ceil_power_of_2`, applied to the non-negative `n - 1`. -/
def smear (n : Nat) : Nat :=
  let n := n ||| n >>> 1
  let n := n ||| n >>> 2
  let n := n ||| n >>> 4
  let n := n ||| n >>> 8
  n ||| n >>> 16

/-- `ceil_power_of_2`: `2` up to `2`, otherwise `n - 1` smeared and incremented. The
increment is the only step that can leave the `int` range. -/
def ceilPowerOf2 (n : Int) : Option Int :=
  if n ≤ 2 then some 2 else int32 (smear (n - 1).toNat + 1)

/-- Modelled from the spec: `h2_log2` (`h2_util.c`, not under `src/`), the exponent of the
power of two that `ceil_power_of_2` returned ("`log2n = log2(ceil_pow2(n))`"). -/
def h2Log2 (n : Int) : Nat := n.toNat.log2

/-- `p` is the least power of two that is at least `m`. -/
def IsLeastPow2Ge (m p : Int) : Prop :=
  (∃ k : Nat, p = 2 ^ k) ∧ m ≤ p ∧ ∀ k : Nat, m ≤ 2 ^ k → p ≤ 2 ^ k

/-! ## §1 — smearing sets every bit below the top -/

/-- The bits of `m` above `k` are clear, and the `t` bits from `k` downwards are set. -/
def Smeared (m k t : Nat) : Prop :=
  (∀ i, k < i → m.testBit i = false) ∧ (∀ i, i ≤ k → k < i + t → m.testBit i = true)

theorem smeared_log2 {m : Nat} (hm : 0 < m) : Smeared m m.log2 1 := by
  have hlt : m < 2 ^ (m.log2 + 1) := Nat.lt_log2_self
  have above : ∀ i, m.log2 < i → m.testBit i = false := fun i hi =>
    Nat.testBit_lt_two_pow (lt_of_lt_of_le hlt (Nat.pow_le_pow_right (by omega) hi))
  refine ⟨above, fun i hi hk => ?_⟩
  obtain ⟨j, hj, hbit⟩ := Nat.ge_two_pow_implies_high_bit_true (Nat.log2_self_le hm.ne')
  have : j = m.log2 := by
    by_contra hne
    rw [above j (by omega)] at hbit
    exact Bool.false_ne_true hbit
  rw [show i = m.log2 by omega, ← this, hbit]

/-- One `m |= m >> j` step with `j ≤ t` doubles the run of set bits below the top. -/
theorem Smeared.or_shiftRight {m k t j : Nat} (h : Smeared m k t) (hj : j ≤ t) :
    Smeared (m ||| m >>> j) k (t + j) := by
  obtain ⟨above, run⟩ := h
  refine ⟨fun i hi => ?_, fun i hi hk => ?_⟩
  · simp [Nat.testBit_or, Nat.testBit_shiftRight, above i hi, above (j + i) (by omega)]
  · rw [Nat.testBit_or, Nat.testBit_shiftRight]
    by_cases hti : k < i + t
    · simp [run i hi hti]
    · simp [run (j + i) (by omega) (by omega)]

theorem smear_eq {m : Nat} (hm : 0 < m) (hlt : m < 2 ^ 32) :
    smear m = 2 ^ (m.log2 + 1) - 1 := by
  have hk : m.log2 < 32 := by
    by_contra h
    have := Nat.log2_self_le hm.ne'
    have := Nat.pow_le_pow_right (show 0 < 2 by omega) (not_lt.mp h)
    omega
  obtain ⟨above, run⟩ :=
    (((((smeared_log2 hm).or_shiftRight (le_refl 1)).or_shiftRight (by omega : 2 ≤ 2))
      |>.or_shiftRight (by omega : 4 ≤ 4)).or_shiftRight (by omega : 8 ≤ 8))
      |>.or_shiftRight (by omega : 16 ≤ 16)
  apply Nat.eq_of_testBit_eq
  intro i
  rw [Nat.testBit_two_pow_sub_one]
  by_cases hi : i ≤ m.log2
  · simp [smear, run i hi (by omega), Nat.lt_succ_of_le hi]
  · simp [smear, above i (by omega), show ¬ i < m.log2 + 1 by omega]

theorem le_or_self_left (m k : Nat) : m ≤ m ||| k :=
  Nat.le_of_testBit fun i h => by simp [Nat.testBit_or, h]

theorem le_smear (m : Nat) : m ≤ smear m := by
  simp only [smear]
  refine le_trans ?_ (le_or_self_left _ _)
  refine le_trans ?_ (le_or_self_left _ _)
  refine le_trans ?_ (le_or_self_left _ _)
  exact le_trans (le_or_self_left _ _) (le_or_self_left _ _)

/-! ## §2 — `ceil_power_of_2` -/

/-- Whatever `ceil_power_of_2` returns without overflow is at least `2`. -/
theorem ceilPowerOf2_two_le {n p : Int} (h : ceilPowerOf2 n = some p) : 2 ≤ p := by
  unfold ceilPowerOf2 int32 at h
  split at h
  · cases h; exact le_refl 2
  · split at h
    · cases h
      have := le_smear (n - 1).toNat
      omega
    · cases h

/-- Up to `2^30`, `ceil_power_of_2` stays in range and returns `2^(log2 (n - 1) + 1)`. -/
theorem ceilPowerOf2_of_two_lt {n : Int} (h2 : 2 < n) (hn : n ≤ 2 ^ 30) :
    ceilPowerOf2 n = some (2 ^ ((n - 1).toNat.log2 + 1)) := by
  have hpos : 0 < (n - 1).toNat := by omega
  have hlt : (n - 1).toNat < 2 ^ 30 := by omega
  have hlog : (n - 1).toNat.log2 < 30 := (Nat.log2_lt hpos.ne').mpr hlt
  have hpow : 2 ^ ((n - 1).toNat.log2 + 1) ≤ 2 ^ 30 :=
    Nat.pow_le_pow_right (by omega) hlog
  have hone : 1 ≤ 2 ^ ((n - 1).toNat.log2 + 1) := Nat.one_le_two_pow
  have hcast : ((2 ^ ((n - 1).toNat.log2 + 1) - 1 : Nat) : Int) + 1
      = 2 ^ ((n - 1).toNat.log2 + 1) := by
    rw [Nat.cast_sub hone]; push_cast; ring
  rw [ceilPowerOf2, if_neg (by omega), smear_eq hpos (by omega), hcast, int32,
    if_pos (by constructor <;> exact_mod_cast (by omega))]

/-- The power `2^(log2 (m - 1) + 1)` is the least one at least `m`, for `m ≥ 2`. -/
theorem isLeastPow2Ge_two_pow_log2 {n : Int} (h2 : 2 < n) :
    IsLeastPow2Ge n (2 ^ ((n - 1).toNat.log2 + 1)) := by
  have hpos : (n - 1).toNat ≠ 0 := by omega
  have hup : (n - 1).toNat < 2 ^ ((n - 1).toNat.log2 + 1) := Nat.lt_log2_self
  have hlow : 2 ^ (n - 1).toNat.log2 ≤ (n - 1).toNat := Nat.log2_self_le hpos
  have hcast : ((n - 1).toNat : Int) = n - 1 := Int.toNat_of_nonneg (by omega)
  refine ⟨⟨_, rfl⟩, ?_, fun k hk => ?_⟩
  · have := Int.ofNat_lt.mpr hup
    push_cast at this
    omega
  · have hk' : (n - 1).toNat < 2 ^ k := by
      have : ((n - 1).toNat : Int) < ((2 ^ k : Nat) : Int) := by push_cast; omega
      exact_mod_cast this
    have : (n - 1).toNat.log2 < k := by
      by_contra h
      have := Nat.pow_le_pow_right (show 0 < 2 by omega) (not_lt.mp h)
      omega
    exact_mod_cast Nat.pow_le_pow_right (by omega) this

/-- **`ceil_power_of_2` up to `2^30`.** It evaluates without signed overflow and returns
the least power of two at least `max n 2`. -/
theorem ceilPowerOf2_least (n : Int) (hn : n ≤ 2 ^ 30) :
    ∃ p, ceilPowerOf2 n = some p ∧ IsLeastPow2Ge (max n 2) p := by
  by_cases h2 : n ≤ 2
  · refine ⟨2, by simp [ceilPowerOf2, h2], ⟨1, rfl⟩, by omega, fun k hk => ?_⟩
    rcases k with _ | k
    · omega
    · have := Nat.one_le_two_pow (n := k)
      rw [pow_succ]
      exact_mod_cast (by omega : 2 ≤ 2 ^ k * 2)
  · refine ⟨_, ceilPowerOf2_of_two_lt (by omega) hn, ?_⟩
    rw [max_eq_left (by omega)]
    exact isLeastPow2Ge_two_pow_log2 (by omega)

/-- Up to `2^30`, `ceil_power_of_2` returns `2^k` with `1 ≤ k ≤ 30`. -/
theorem ceilPowerOf2_eq_two_pow {n : Int} (hn : n ≤ 2 ^ 30) :
    ∃ k : Nat, ceilPowerOf2 n = some (2 ^ k) ∧ 1 ≤ k ∧ k ≤ 30 := by
  obtain ⟨p, hp, ⟨k, rfl⟩, -, hleast⟩ := ceilPowerOf2_least n hn
  have h2 := ceilPowerOf2_two_le hp
  have h30 : (2 : Int) ^ k ≤ 2 ^ 30 := hleast 30 (by omega)
  refine ⟨k, hp, ?_, (pow_le_pow_iff_right₀ (by norm_num : (1 : Int) < 2)).mp h30⟩
  rcases k with _ | k
  · norm_num at h2
  · omega

/-- `h2_log2` of a power of two is its exponent. -/
@[simp] theorem h2Log2_two_pow (k : Nat) : h2Log2 (2 ^ k) = k := by
  rw [h2Log2, show (2 : Int) ^ k = ((2 ^ k : Nat) : Int) by push_cast; rfl, Int.toNat_ofNat,
    Nat.log2_two_pow]

end H2
