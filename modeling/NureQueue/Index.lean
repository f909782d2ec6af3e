import Mathlib.Tactic.Ring
import NureQueue.Lib.MixedRadix

/-! # Build parameters and the encoding of head and tail

An index word holds a lap in its high bits and a slot index in its low bits. The
functions up to `next` are the source's; `enc` is the word that stands for an
unbounded position, counted in successful moves of the index.
-/

namespace NureQueue

/-- The capacity, the width of `usize` and the width of `Index`, as the asserts of
`Queue::new` and the choice of `AtomicIndex` leave them. -/
structure Config where
  N : ℕ
  u : ℕ
  w : ℕ
  pos : 0 < N
  cap : N ≤ (2 ^ (u - 1) - 1) / 2
  width : u ≤ w

def Config.one : Config := ⟨1, 64, 64, by decide, by decide, le_rfl⟩

theorem toNat_one {w : ℕ} (hw : 0 < w) : (1 : BitVec w).toNat = 1 := by
  rw [BitVec.ofNat_eq_ofNat, BitVec.toNat_ofNat]
  exact Nat.mod_eq_of_lt (Nat.one_lt_two_pow (by omega))

theorem toNat_two {w : ℕ} (hw : 1 < w) : (2 : BitVec w).toNat = 2 := by
  rw [BitVec.ofNat_eq_ofNat, BitVec.toNat_ofNat]
  have hPow : 2 ^ 1 < 2 ^ w := Nat.pow_lt_pow_right (by decide) hw
  exact Nat.mod_eq_of_lt hPow

def oneLapLoop {w : ℕ} (need : BitVec w) : ℕ → BitVec w → Option (BitVec w)
  | 0, _ => none
  | fuel + 1, lap => if lap < need then oneLapLoop need fuel (lap * 2) else some lap

/-- `one_lap_for`. A lap doubled w times is 0 for good, so w rounds decide the loop. -/
def oneLapFor {w : ℕ} (cap : BitVec w) : Option (BitVec w) :=
  oneLapLoop (cap + 1) w 2

namespace Config

variable (c : Config)

abbrev Index := BitVec c.w

def oneLap : c.Index := (oneLapFor (BitVec.ofNat c.w c.N)).getD 0

/-- `(x & (one_lap - 1)) as usize` -/
def index (x : c.Index) : ℕ := (x &&& (c.oneLap - 1)).toNat % 2 ^ c.u

def lap (x : c.Index) : c.Index := x &&& ~~~(c.oneLap - 1)

/-- The successor computed in `push_or_else` and in `pop`. -/
def next (x : c.Index) : c.Index :=
  if c.index x + 1 < c.N then x + 1 else c.lap x + c.oneLap

theorem need_le : 3 ≤ c.u ∧ c.N + 1 ≤ 2 ^ (c.u - 2) := by
  have hPos := c.pos
  have hCap := c.cap
  obtain hu | hu := Nat.lt_or_ge c.u 2
  · have hZero : c.u - 1 = 0 := by omega
    rw [hZero] at hCap
    omega
  · have hPow : 2 ^ (c.u - 1) = 2 * 2 ^ (c.u - 2) := by
      rw [← Nat.pow_succ']
      congr 1
      omega
    rw [hPow] at hCap
    refine ⟨?_, by omega⟩
    by_contra hu3
    have hTwo : c.u - 2 = 0 := by omega
    rw [hTwo] at hCap
    omega

theorem w_pos : 0 < c.w := by
  have hu := c.need_le
  have hw := c.width
  omega

theorem oneLapLoop_eq {w m : ℕ} (need : BitVec w) (hm : m < w) (hNeed : need.toNat ≤ 2 ^ m)
    (fuel j : ℕ) (lap : BitVec w) (hLap : lap.toNat = 2 ^ j) (hj : 1 ≤ j) (hjm : j ≤ m)
    (hLow : 2 ^ (j - 1) < need.toNat) (hFuel : m < fuel + j) :
    ∃ b r, oneLapLoop need fuel lap = some r ∧ r.toNat = 2 ^ b ∧ 1 ≤ b ∧ b ≤ m ∧
      need.toNat ≤ 2 ^ b ∧ 2 ^ (b - 1) < need.toNat := by
  induction fuel generalizing j lap with
  | zero => omega
  | succ fuel ih =>
    rw [oneLapLoop]
    split
    · rename_i hLess
      have hPow : 2 ^ j < need.toNat := by
        rw [← hLap]
        exact BitVec.lt_def.mp hLess
      have hjLt : j < m := (Nat.pow_lt_pow_iff_right (by decide)).mp (hPow.trans_le hNeed)
      have hBound : 2 ^ (j + 1) < 2 ^ w := Nat.pow_lt_pow_right (by decide) (by omega)
      have hDouble : (lap * 2).toNat = 2 ^ (j + 1) := by
        rw [BitVec.toNat_mul, hLap, toNat_two (by omega), ← Nat.pow_succ, Nat.mod_eq_of_lt hBound]
      exact ih (j + 1) (lap * 2) hDouble (by omega) hjLt (by simpa using hPow) (by omega)
    · rename_i hLess
      refine ⟨j, lap, rfl, hLap, hj, hjm, ?_, hLow⟩
      rw [← hLap]
      exact Nat.le_of_not_lt fun h => hLess (BitVec.lt_def.mpr h)

theorem toNat_capacity_succ : (BitVec.ofNat c.w c.N + 1).toNat = c.N + 1 := by
  have hPos := c.pos
  have hu := c.need_le
  have hw : 2 ^ (c.u - 2) < 2 ^ c.w :=
    Nat.pow_lt_pow_right (by decide) (by have := c.width; omega)
  rw [BitVec.toNat_add, BitVec.toNat_ofNat, Nat.mod_eq_of_lt (show c.N < 2 ^ c.w by omega),
    toNat_one c.w_pos, Nat.mod_eq_of_lt (by omega)]

/-- `one_lap` is the least power of two above N, with at least four laps to a word. -/
theorem oneLapFor_eq : ∃ b, oneLapFor (BitVec.ofNat c.w c.N) = some c.oneLap ∧
    c.oneLap.toNat = 2 ^ b ∧ c.N < 2 ^ b ∧ 2 ^ (b - 1) ≤ c.N ∧ b + 2 ≤ c.u := by
  have hu := c.need_le
  have hw := c.width
  have hPos := c.pos
  have hNeed := c.toNat_capacity_succ
  have hTwo : (2 : BitVec c.w).toNat = 2 ^ 1 := toNat_two (by omega)
  obtain ⟨b, r, hRun, hr, hb, hbm, hNeedLe, hLow⟩ :=
    oneLapLoop_eq (m := c.u - 2) (BitVec.ofNat c.w c.N + 1) (by omega)
      (by rw [hNeed]; exact hu.2) c.w 1 2 hTwo le_rfl (by omega)
      (by rw [hNeed]; simpa using hPos) (by omega)
  have hOneLap : c.oneLap = r := by
    rw [oneLap, oneLapFor, hRun]
    rfl
  rw [hNeed] at hNeedLe hLow
  rw [hOneLap]
  exact ⟨b, hRun, hr, by omega, by omega, by omega⟩

def L : ℕ := c.oneLap.toNat

/-- The number of laps after which the index words come back. -/
def laps : ℕ := 2 ^ c.w / c.L

/-- The number of moves after which an index word comes back. -/
def K : ℕ := c.N * c.laps

theorem N_lt_L : c.N < c.L := by
  obtain ⟨b, -, hL, hN, -⟩ := c.oneLapFor_eq
  rwa [L, hL]

theorem L_mul_laps : c.L * c.laps = 2 ^ c.w := by
  obtain ⟨b, -, hL, -, -, hb⟩ := c.oneLapFor_eq
  have hw := c.width
  rw [laps, L, hL]
  exact Nat.mul_div_cancel' (Nat.pow_dvd_pow 2 (by omega))

theorem L_dvd : c.L ∣ 2 ^ c.w := ⟨c.laps, c.L_mul_laps.symm⟩

theorem four_le_laps : 4 ≤ c.laps := by
  obtain ⟨b, -, hL, -, -, hb⟩ := c.oneLapFor_eq
  have hw := c.width
  rw [laps, L, hL, Nat.pow_div (by omega) (by decide)]
  calc 4 = 2 ^ 2 := rfl
    _ ≤ 2 ^ (c.w - b) := Nat.pow_le_pow_right (by decide) (by omega)

theorem four_mul_L_le : 4 * c.L ≤ 2 ^ c.w := by
  rw [← L_mul_laps, Nat.mul_comm]
  exact Nat.mul_le_mul_left _ c.four_le_laps

theorem two_mul_L_le : 2 * c.L ≤ 2 ^ (c.w - 1) := by
  have hFour := c.four_mul_L_le
  have hPow : 2 ^ c.w = 2 ^ (c.w - 1) * 2 := by
    rw [← Nat.pow_succ]
    congr 1
    have hw := c.w_pos
    omega
  omega

theorem four_mul_N_le_K : 4 * c.N ≤ c.K := by
  rw [K, Nat.mul_comm]
  exact Nat.mul_le_mul_left _ c.four_le_laps

theorem toNat_and_mask (x : c.Index) : (x &&& (c.oneLap - 1)).toNat = x.toNat % c.L := by
  obtain ⟨b, -, hL, hN, -, hb⟩ := c.oneLapFor_eq
  have hOne : (1 : c.Index).toNat = 1 := toNat_one c.w_pos
  have hMask : (c.oneLap - 1).toNat = 2 ^ b - 1 := by
    rw [BitVec.toNat_sub_of_le, hOne, hL]
    rw [BitVec.le_def, hOne, hL]
    omega
  rw [BitVec.toNat_and, hMask, Nat.and_two_pow_sub_one_eq_mod, L, hL]

/-- The cast to `usize` loses nothing. -/
theorem index_eq (x : c.Index) : c.index x = x.toNat % c.L := by
  obtain ⟨b, -, hL, hN, -, hb⟩ := c.oneLapFor_eq
  have hPos : 0 < c.L := Nat.zero_lt_of_lt c.N_lt_L
  have hLt : x.toNat % c.L < 2 ^ c.u := by
    calc x.toNat % c.L < c.L := Nat.mod_lt _ hPos
      _ = 2 ^ b := hL
      _ ≤ 2 ^ c.u := Nat.pow_le_pow_right (by decide) (by omega)
  rw [index, toNat_and_mask, Nat.mod_eq_of_lt hLt]

theorem lap_add_low (x : c.Index) : c.lap x + BitVec.ofNat c.w (c.index x) = x := by
  have hLow : BitVec.ofNat c.w (c.index x) = x &&& (c.oneLap - 1) := by
    rw [index_eq, ← toNat_and_mask, BitVec.ofNat_toNat, BitVec.setWidth_eq]
  rw [hLow, lap, BitVec.add_eq_or_of_and_eq_zero]
  · ext i
    simp only [BitVec.getElem_or, BitVec.getElem_and, BitVec.getElem_not]
    cases x[i] <;> cases (c.oneLap - 1)[i] <;> rfl
  · ext i
    simp only [BitVec.getElem_and, BitVec.getElem_not, BitVec.getElem_zero]
    cases x[i] <;> cases (c.oneLap - 1)[i] <;> rfl

/-- Whole laps change neither the slot nor the place of the successor. -/
theorem index_add_laps (x y : c.Index) : c.index (x + y * c.oneLap) = c.index x := by
  rw [index_eq, index_eq, BitVec.toNat_add, BitVec.toNat_mul, Nat.mod_mod_of_dvd _ c.L_dvd,
    Nat.add_mod, Nat.mod_mod_of_dvd _ c.L_dvd]
  change (x.toNat % c.L + y.toNat * c.L % c.L) % c.L = x.toNat % c.L
  rw [Nat.mul_mod_left, Nat.add_zero, Nat.mod_mod]

theorem lap_add_laps (x y : c.Index) : c.lap (x + y * c.oneLap) = c.lap x + y * c.oneLap := by
  have hSplit := c.lap_add_low (x + y * c.oneLap)
  have hOld := c.lap_add_low x
  rw [index_add_laps] at hSplit
  apply (BitVec.add_left_inj (BitVec.ofNat c.w (c.index x))).mp
  rw [hSplit, BitVec.add_assoc, BitVec.add_comm (y * c.oneLap), ← BitVec.add_assoc, hOld]

theorem next_add_laps (x y : c.Index) : c.next (x + y * c.oneLap) = c.next x + y * c.oneLap := by
  rw [next, next, index_add_laps, lap_add_laps]
  split <;> rw [BitVec.add_assoc, BitVec.add_comm (y * c.oneLap), ← BitVec.add_assoc]

theorem index_add_oneLap (x : c.Index) : c.index (x + c.oneLap) = c.index x := by
  simpa using c.index_add_laps x 1

/-- The two ways in which `force_push` may compute the successor of head agree. -/
theorem next_sub_oneLap (x : c.Index) : c.next x - c.oneLap = c.next (x - c.oneLap) := by
  have hNext := c.next_add_laps (x - c.oneLap) 1
  rw [BitVec.ofNat_eq_ofNat, BitVec.one_mul, BitVec.sub_add_cancel] at hNext
  rw [hNext, BitVec.add_sub_cancel]

theorem index_succ {x : c.Index} (hx : c.index x < c.N) : c.index (x + 1) = c.index x + 1 := by
  have hN := c.N_lt_L
  have hOne : (1 : c.Index).toNat = 1 := toNat_one c.w_pos
  rw [index_eq] at hx ⊢
  rw [index_eq, BitVec.toNat_add, Nat.mod_mod_of_dvd _ c.L_dvd, hOne, Nat.add_mod,
    Nat.mod_eq_of_lt (show 1 < c.L by omega), Nat.mod_eq_of_lt (by omega)]

def enc (k : ℕ) : c.Index := BitVec.ofNat c.w (MixedRadix.code c.N c.L k)

theorem toNat_enc (k : ℕ) : (c.enc k).toNat = MixedRadix.code c.N c.L k % (c.L * c.laps) := by
  rw [enc, BitVec.toNat_ofNat, L_mul_laps]

@[simp] theorem enc_zero : c.enc 0 = 0 := by simp [enc]

theorem enc_of_lt {i : ℕ} (hi : i < c.N) : c.enc i = BitVec.ofNat c.w i := by
  rw [enc, MixedRadix.code_of_lt hi]

@[simp] theorem index_enc (k : ℕ) : c.index (c.enc k) = k % c.N := by
  rw [index_eq, toNat_enc, Nat.mod_mul_right_mod,
    MixedRadix.code_mod_lap c.N_lt_L.le c.pos]

@[simp] theorem next_enc (k : ℕ) : c.next (c.enc k) = c.enc (k + 1) := by
  rw [next, index_enc]
  split
  · rename_i hLt
    rw [enc, enc, MixedRadix.code_succ_of_lt hLt, BitVec.ofNat_add]
    rfl
  · rename_i hLast
    have hLap : c.lap (c.enc k) = BitVec.ofNat c.w (k / c.N * c.L) := by
      have hSplit := c.lap_add_low (c.enc k)
      rw [index_enc] at hSplit
      exact (BitVec.add_left_inj _).mp (hSplit.trans (BitVec.ofNat_add _ _))
    rw [hLap, enc, MixedRadix.code_succ_of_last c.pos hLast, BitVec.ofNat_add, L,
      BitVec.ofNat_toNat, BitVec.setWidth_eq]

@[simp] theorem enc_add_N (k : ℕ) : c.enc (k + c.N) = c.enc k + c.oneLap := by
  rw [enc, MixedRadix.code_add_period c.pos, BitVec.ofNat_add, L, BitVec.ofNat_toNat,
    BitVec.setWidth_eq]
  rfl

theorem enc_eq_iff (j k : ℕ) : c.enc j = c.enc k ↔ j % c.K = k % c.K := by
  rw [← BitVec.toNat_inj, toNat_enc, toNat_enc, K]
  exact MixedRadix.code_mod_eq_iff c.N_lt_L.le c.pos j k

theorem eq_of_enc_eq {j k : ℕ} (h : c.enc j = c.enc k) (hjk : j < k + c.K) (hkj : k < j + c.K) :
    j = k :=
  Nat.ModEq.eq_of_abs_lt ((c.enc_eq_iff j k).mp h) (abs_lt.mpr ⟨by omega, by omega⟩)

theorem enc_inj {j k : ℕ} (hLow : k ≤ j) (hHigh : j < k + c.K) : c.enc j = c.enc k ↔ j = k := by
  refine ⟨fun hWord => c.eq_of_enc_eq hWord hHigh ?_, fun hSame => by rw [hSame]⟩
  have hN := c.pos
  have hK := c.four_mul_N_le_K
  omega

theorem enc_succ_ne {j k : ℕ} (h : j % c.N = k % c.N) : c.enc j + 1 ≠ c.enc k := by
  intro hEq
  have hLt : c.index (c.enc j) < c.N := by
    rw [index_enc]
    exact Nat.mod_lt _ c.pos
  have hIndex := c.index_succ hLt
  rw [hEq, index_enc, index_enc] at hIndex
  omega

end Config

end NureQueue
