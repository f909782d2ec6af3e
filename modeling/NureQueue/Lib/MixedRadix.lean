import Mathlib.Data.Nat.ModEq
import Mathlib.Order.Monotone.Basic

/-! # A counter with a lap part and an index part

The positions 0, 1, 2, ... are written as lap * L + index with N indices to a lap,
where L need not be N: the codes of one lap are followed by a gap. Modulo L * M the
code has M laps, so it comes back after exactly N * M positions.
-/

namespace MixedRadix

variable {N L M : ℕ}

def code (N L k : ℕ) : ℕ := k / N * L + k % N

@[simp] theorem code_zero : code N L 0 = 0 := by simp [code]

theorem code_of_lt {k : ℕ} (hk : k < N) : code N L k = k := by
  simp [code, Nat.div_eq_of_lt hk, Nat.mod_eq_of_lt hk]

theorem code_add_period (hN : 0 < N) (k : ℕ) : code N L (k + N) = code N L k + L := by
  rw [code, code, Nat.add_div_right k hN, Nat.add_mod_right, Nat.succ_mul]
  omega

theorem code_succ_of_lt {k : ℕ} (hk : k % N + 1 < N) : code N L (k + 1) = code N L k + 1 := by
  have hMod : (k + 1) % N = k % N + 1 := by
    rw [Nat.add_mod, Nat.mod_eq_of_lt (show 1 < N by omega), Nat.mod_eq_of_lt hk]
  have hDiv : (k + 1) / N = k / N := Nat.succ_div_of_not_dvd fun hDvd => by
    have hZero := Nat.mod_eq_zero_of_dvd hDvd
    omega
  rw [code, code, hMod, hDiv, Nat.add_assoc]

theorem code_succ_of_last (hN : 0 < N) {k : ℕ} (hk : ¬ k % N + 1 < N) :
    code N L (k + 1) = k / N * L + L := by
  have hLt := Nat.mod_lt k hN
  have hDvd : N ∣ k + 1 := by
    refine ⟨k / N + 1, ?_⟩
    have hDivMod := Nat.div_add_mod k N
    rw [Nat.mul_succ]
    omega
  rw [code, Nat.succ_div_of_dvd hDvd, Nat.mod_eq_zero_of_dvd hDvd, Nat.succ_mul, Nat.add_zero]

theorem code_mono (hNL : N ≤ L) (hN : 0 < N) : Monotone (code N L) := by
  apply monotone_nat_of_le_succ
  intro k
  have hLt := Nat.mod_lt k hN
  by_cases hLast : k % N + 1 < N
  · rw [code_succ_of_lt hLast]
    exact Nat.le_succ _
  · rw [code_succ_of_last hN hLast, code]
    omega

theorem code_mod_lap (hNL : N ≤ L) (hN : 0 < N) (k : ℕ) : code N L k % L = k % N := by
  have hLt := Nat.mod_lt k hN
  rw [code, Nat.mul_add_mod_self_right, Nat.mod_eq_of_lt (by omega)]

theorem code_div_lap (hNL : N ≤ L) (hN : 0 < N) (k : ℕ) : code N L k / L = k / N := by
  have hLt := Nat.mod_lt k hN
  have hIndex : k % N / L = 0 := Nat.div_eq_of_lt (by omega)
  rw [code, Nat.mul_comm, Nat.mul_add_div (by omega), hIndex, Nat.add_zero]

/-- Two positions have one code modulo L * M exactly when they agree modulo N * M. -/
theorem code_mod_eq_iff (hNL : N ≤ L) (hN : 0 < N) (j k : ℕ) :
    code N L j % (L * M) = code N L k % (L * M) ↔ j % (N * M) = k % (N * M) := by
  rw [Nat.mod_mul, Nat.mod_mul, Nat.mod_mul, Nat.mod_mul, code_mod_lap hNL hN,
    code_mod_lap hNL hN, code_div_lap hNL hN, code_div_lap hNL hN]
  have hj := Nat.mod_lt j hN
  have hk := Nat.mod_lt k hN
  constructor
  · intro h
    have hIndex : j % N = k % N := by
      have hMod := congrArg (· % L) h
      simp only [Nat.add_mul_mod_self_left] at hMod
      rwa [Nat.mod_eq_of_lt (hj.trans_le hNL), Nat.mod_eq_of_lt (hk.trans_le hNL)] at hMod
    rw [hIndex] at h ⊢
    have hLap := Nat.eq_of_mul_eq_mul_left (by omega) (Nat.add_left_cancel h)
    rw [hLap]
  · intro h
    have hIndex : j % N = k % N := by
      have hMod := congrArg (· % N) h
      simp only [Nat.add_mul_mod_self_left] at hMod
      rwa [Nat.mod_mod, Nat.mod_mod] at hMod
    rw [hIndex] at h ⊢
    have hLap := Nat.eq_of_mul_eq_mul_left hN (Nat.add_left_cancel h)
    rw [hLap]

end MixedRadix
