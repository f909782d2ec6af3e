import Mathlib.Order.Bounds.Defs
import NureQueue.Bounds
import NureQueue.Rest

/-! # The lap size and the period of the index words

`one_lap_for` ends for every capacity that `Queue::new` admits, without an overflow. The
words of head and tail then come back after exactly K moves, so an outdated exchange
commits exactly when it is late by a multiple of K.
-/

namespace NureQueue

universe u

variable {α : Type u}

/-- The loop of `one_lap_for` where an overflow of the doubling ends the program. -/
def oneLapLoopChecked {w : ℕ} (need : BitVec w) : ℕ → BitVec w → Option (BitVec w)
  | 0, _ => none
  | fuel + 1, lap =>
    if lap < need then
      if lap.toNat * 2 < 2 ^ w then oneLapLoopChecked need fuel (lap * 2) else none
    else some lap

def oneLapForChecked {w : ℕ} (cap : BitVec w) (fuel : ℕ) : Option (BitVec w) :=
  if cap.toNat + 1 < 2 ^ w then oneLapLoopChecked (cap + 1) fuel 2 else none

theorem oneLapLoopChecked_eq {w m : ℕ} (need : BitVec w) (hm : m < w)
    (hNeed : need.toNat ≤ 2 ^ m) (fuel : ℕ) (lap : BitVec w) :
    oneLapLoopChecked need fuel lap = oneLapLoop need fuel lap := by
  induction fuel generalizing lap with
  | zero => rfl
  | succ fuel ih =>
    rw [oneLapLoopChecked, oneLapLoop]
    split
    · rename_i hLess
      -- a lap that is doubled is below a power of two that is below 2 ^ w
      have hLap : lap.toNat < 2 ^ m := (BitVec.lt_def.mp hLess).trans_le hNeed
      have hDouble : 2 ^ (m + 1) ≤ 2 ^ w := Nat.pow_le_pow_right (by decide) hm
      rw [if_pos (by omega), ih]
    · rfl

theorem oneLapLoop_mono {w : ℕ} {need r : BitVec w} {fuel fuel' : ℕ} {lap : BitVec w}
    (hRun : oneLapLoop need fuel lap = some r) (hFuel : fuel ≤ fuel') :
    oneLapLoop need fuel' lap = some r := by
  induction fuel generalizing fuel' lap with
  | zero => cases hRun
  | succ fuel ih =>
    obtain ⟨more, rfl⟩ := Nat.exists_eq_add_of_le' hFuel
    rw [oneLapLoop] at hRun
    rw [← Nat.add_assoc, oneLapLoop]
    split
    · rename_i hLess
      rw [if_pos hLess] at hRun
      exact ih hRun (by omega)
    · rename_i hLess
      rwa [if_neg hLess] at hRun

namespace Config

variable (c : Config)

theorem toNat_capacity : (BitVec.ofNat c.w c.N).toNat = c.N := by
  have hSucc := c.toNat_capacity_succ
  rw [BitVec.toNat_ofNat]
  apply Nat.mod_eq_of_lt
  have hLt := (BitVec.ofNat c.w c.N + 1).isLt
  omega

theorem oneLapForChecked_eq {fuel : ℕ} (hFuel : c.w ≤ fuel) :
    oneLapForChecked (BitVec.ofNat c.w c.N) fuel = some c.oneLap := by
  obtain ⟨hu, hNeed⟩ := c.need_le
  have hw := c.width
  have hSucc := c.toNat_capacity_succ
  have hLt := (BitVec.ofNat c.w c.N + 1).isLt
  obtain ⟨b, hRun, -⟩ := c.oneLapFor_eq
  rw [oneLapForChecked, toNat_capacity, if_pos (by omega),
    oneLapLoopChecked_eq (m := c.u - 2) _ (by omega) (by omega)]
  exact oneLapLoop_mono hRun hFuel

theorem isLeast_oneLap : IsLeast {p | (∃ b, p = 2 ^ b) ∧ c.N < p} c.oneLap.toNat := by
  obtain ⟨b, -, hL, hN, hLow, -⟩ := c.oneLapFor_eq
  refine ⟨⟨⟨b, hL⟩, by omega⟩, ?_⟩
  rintro _ ⟨⟨b', rfl⟩, hN'⟩
  have hExp : b - 1 < b' := (Nat.pow_lt_pow_iff_right (by decide)).mp (hLow.trans_lt hN')
  rw [hL]
  exact Nat.pow_le_pow_right (by decide) (by omega)

theorem oneLap_le : c.oneLap.toNat ≤ 2 ^ (c.w - 2) := by
  obtain ⟨b, -, hL, -, -, hb⟩ := c.oneLapFor_eq
  have hw := c.width
  rw [hL]
  exact Nat.pow_le_pow_right (by decide) (by omega)

/-- For every capacity that `Queue::new` admits, `one_lap_for` returns after at most w
rounds, none of its operations overflows, and the result is the least power of two above
the capacity, with at least four laps to a cycle of the index words. -/
theorem oneLapFor_least :
    (BitVec.ofNat c.w c.N).toNat = c.N ∧
    (∀ fuel, c.w ≤ fuel → oneLapForChecked (BitVec.ofNat c.w c.N) fuel = some c.oneLap) ∧
    oneLapFor (BitVec.ofNat c.w c.N) = some c.oneLap ∧
    IsLeast {p | (∃ b, p = 2 ^ b) ∧ c.N < p} c.oneLap.toNat ∧
    c.oneLap.toNat ≤ 2 ^ (c.w - 2) ∧ c.oneLap.toNat ∣ 2 ^ c.w ∧
    4 ≤ 2 ^ c.w / c.oneLap.toNat := by
  obtain ⟨b, hRun, -⟩ := c.oneLapFor_eq
  exact ⟨c.toNat_capacity, fun fuel hFuel => c.oneLapForChecked_eq hFuel, hRun,
    c.isLeast_oneLap, c.oneLap_le, c.L_dvd, c.four_le_laps⟩

@[simp] theorem iterate_next_enc (j m : ℕ) : c.next^[m] (c.enc j) = c.enc (j + m) := by
  induction m with
  | zero => rfl
  | succ m ih => rw [Function.iterate_succ_apply', ih, c.next_enc, Nat.add_assoc]

@[simp] theorem iterate_next_zero (k : ℕ) : c.next^[k] 0 = c.enc k := by
  rw [← c.enc_zero, iterate_next_enc, Nat.zero_add]

theorem K_pos : 0 < c.K := by
  have hN := c.pos
  have hK := c.four_mul_N_le_K
  omega

theorem K_eq : c.K = c.N * 2 ^ c.w / c.L := (Nat.mul_div_assoc c.N c.L_dvd).symm

theorem enc_eq_iff_dvd (j k : ℕ) : c.enc j = c.enc k ↔ (c.K : ℤ) ∣ j - k := by
  rw [enc_eq_iff]
  constructor
  · intro hMod
    exact Nat.modEq_iff_dvd.mp (Nat.ModEq.symm hMod)
  · intro hDvd
    exact (Nat.modEq_iff_dvd.mpr hDvd).symm

/-- Every word with its low part below N is the word of some position. -/
theorem Valid.exists_enc {x : c.Index} (h : c.Valid x) : ∃ k, x = c.enc k := by
  have hLow : x.toNat % c.L < c.N := by rwa [← c.index_eq]
  refine ⟨x.toNat / c.L * c.N + x.toNat % c.L, ?_⟩
  rw [← BitVec.toNat_inj, toNat_enc, L_mul_laps, MixedRadix.code, Nat.mul_comm _ c.N,
    Nat.mul_add_div c.pos, Nat.mul_add_mod, Nat.div_eq_of_lt hLow, Nat.mod_eq_of_lt hLow,
    Nat.add_zero, Nat.mul_comm, Nat.div_add_mod, Nat.mod_eq_of_lt x.isLt]

theorem Valid.iterate_next_eq_iff {x : c.Index} (h : c.Valid x) (m : ℕ) :
    c.next^[m] x = x ↔ c.K ∣ m := by
  obtain ⟨k, rfl⟩ := h.exists_enc
  rw [iterate_next_enc, enc_eq_iff_dvd, Nat.cast_add, add_sub_cancel_left, Int.natCast_dvd_natCast]

end Config

def Queue.word {c : Config} (q : Queue c α) : Word → c.Index
  | .head => q.head
  | .tail => q.tail

/-- The index of a `compare_exchange_weak` and the value that it expects there. -/
def Pc.expects {c : Config} : Pc c α → Option (Word × c.Index)
  | .pushCas _ _ tail => some (.tail, tail)
  | .forceCas _ tail => some (.head, tail - c.oneLap)
  | .popCas head => some (.head, head)
  | _ => none

/-- The exchange is made and does not fail spuriously. -/
def Pc.Commits {c : Config} (q : Queue c α) (p : Pc c α) : Prop :=
  ∃ a q' p', p.step q false = some (a, q', p') ∧ (a = .casHead true ∨ a = .casTail true)

section Exchange

variable {c : Config} {p : Pc c α} {q : Queue c α} {i : Word} {x : c.Index}

theorem Pc.commits_iff (hExpects : p.expects = some (i, x)) : p.Commits q ↔ q.word i = x := by
  cases p with
  | pushCas | forceCas | popCas =>
    cases hExpects
    constructor
    · rintro ⟨a, q', p', hStep, hWon⟩
      rw [Pc.step] at hStep
      split at hStep <;> cases hStep
      · rename_i hSame
        exact hSame.1
      · simp at hWon
    · intro hSame
      exact ⟨_, _, _, if_pos ⟨hSame, rfl⟩, by simp⟩
  | _ => cases hExpects

theorem Pc.commits_late_iff (hExpects : p.expects = some (i, x)) (hValid : c.Valid x) {m : ℕ}
    (hWord : q.word i = c.next^[m] x) : p.Commits q ↔ c.K ∣ m := by
  rw [Pc.commits_iff hExpects, hWord, hValid.iterate_next_eq_iff]

/-- K moves is the least delay at which an outdated exchange commits. -/
theorem Pc.isLeast_commits_late (hExpects : p.expects = some (i, x)) (hValid : c.Valid x) :
    IsLeast {m | 0 < m ∧ ∃ q, q.word i = c.next^[m] x ∧ p.Commits q} c.K := by
  constructor
  · refine ⟨c.K_pos, { Queue.new c α with head := c.next^[c.K] x, tail := c.next^[c.K] x }, ?_⟩
    have hWord : Queue.word { Queue.new c α with
        head := c.next^[c.K] x, tail := c.next^[c.K] x } i = c.next^[c.K] x := by
      cases i <;> rfl
    exact ⟨hWord, (Pc.commits_late_iff hExpects hValid hWord).mpr dvd_rfl⟩
  · rintro m ⟨hPos, q, hWord, hCommits⟩
    exact Nat.le_of_dvd hPos ((Pc.commits_late_iff hExpects hValid hWord).mp hCommits)

end Exchange

theorem Queue.dropIndices_length {c : Config} (q : Queue c α) :
    q.dropIndices.length = c.lenOf q.head q.tail := by
  simp [Queue.dropIndices]

/-- Words of positions at most N apart: the tests for empty and for full and the case split
of `len` and `Drop::drop` are exact. -/
theorem Queue.distance_exact {c : Config} {q : Queue c α} {h d : ℕ} (hd : d ≤ c.N)
    (hHead : q.head = c.enc h) (hTail : q.tail = c.enc (h + d)) :
    (q.tail = q.head ↔ d = 0) ∧ (q.head + c.oneLap = q.tail ↔ d = c.N) ∧
    c.lenOf q.head q.tail = d ∧ q.dropIndices.length = d := by
  have hN := c.pos
  have hK := c.four_mul_N_le_K
  have hLen := c.lenOf_enc (h := h) hd
  rw [q.dropIndices_length, hHead, hTail, ← c.enc_add_N]
  refine ⟨?_, ?_, hLen, hLen⟩
  · rw [c.enc_inj (by omega) (by omega)]
    omega
  · rw [c.enc_inj (by omega) (by omega)]
    omega

/-- The encoding of positions by words, its exact period, and what follows for the tests on
head and tail and for an exchange on a word that has been moved on by m successors. -/
theorem index_words_exact (c : Config) (α : Type u) :
    (∀ k, (c.next^[k] 0).toNat = (k / c.N * c.oneLap.toNat + k % c.N) % 2 ^ c.w) ∧
    (∀ k, c.next^[k + c.N] 0 = c.next^[k] 0 + c.oneLap) ∧
    (∀ tail, c.next tail - c.oneLap = c.next (tail - c.oneLap)) ∧
    (∀ j k : ℕ, c.next^[j] 0 = c.next^[k] 0 ↔ (c.K : ℤ) ∣ j - k) ∧
    c.K = c.N * 2 ^ c.w / c.oneLap.toNat ∧ 4 * c.N ≤ c.K ∧
    (∀ (q : Queue c α) h d, d ≤ c.N → q.head = c.next^[h] 0 → q.tail = c.next^[h + d] 0 →
      (q.tail = q.head ↔ d = 0) ∧ (q.head + c.oneLap = q.tail ↔ d = c.N) ∧
      c.lenOf q.head q.tail = d ∧ q.dropIndices.length = d) ∧
    (∀ (p : Pc c α) i x, p.expects = some (i, x) → c.Valid x →
      (∀ q m, q.word i = c.next^[m] x → (p.Commits q ↔ c.K ∣ m)) ∧
      IsLeast {m | 0 < m ∧ ∃ q, q.word i = c.next^[m] x ∧ p.Commits q} c.K) := by
  simp only [c.iterate_next_zero]
  refine ⟨?_, c.enc_add_N, c.next_sub_oneLap, c.enc_eq_iff_dvd, c.K_eq, c.four_mul_N_le_K, ?_, ?_⟩
  · intro k
    rw [c.toNat_enc, c.L_mul_laps]
    rfl
  · intro q h d hd hHead hTail
    exact Queue.distance_exact hd hHead hTail
  · intro p i x hExpects hValid
    exact ⟨fun q m hWord => Pc.commits_late_iff hExpects hValid hWord,
      Pc.isLeast_commits_late hExpects hValid⟩

end NureQueue
