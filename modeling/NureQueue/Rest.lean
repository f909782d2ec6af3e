import Mathlib.Data.List.Nodup
import NureQueue.Represents

/-! # The queue at rest

When no slot is held, the slots from head to tail hold the stored elements in order and
the others hold nothing. `len` then returns the number of elements, and `Drop::drop`
visits their slots from the oldest to the newest.
-/

namespace NureQueue

universe u v

variable {c : Config} {ι : Type v} {α : Type u}

namespace Ring

def Rest (N : ℕ) (r : Ring ι α) : Prop := ∀ i < N, (r.cell i).hold.holder = none

section Rest

variable {N : ℕ} {r : Ring ι α} (h : r.Ok N) (hRest : r.Rest N) (hN : 0 < N)

include h hRest hN

theorem Rest.half : r.half = none := by
  apply h.half_none
  intro t hForcing
  have hHolder := hRest _ (Nat.mod_lt r.tail hN)
  rw [hForcing] at hHolder
  cases hHolder

theorem Rest.log_length : r.log.length = r.tail := by
  rw [h.log_length, Rest.half h hRest hN]
  rfl

theorem Rest.items_length : r.items.length = r.tail - r.head := by
  rw [h.items_length, Rest.half h hRest hN]
  rfl

theorem Rest.pos {k : ℕ} (hLow : r.head ≤ k) (hHigh : k < r.head + N) :
    (r.cell (k % N)).pos = k := by
  have hi := Nat.mod_lt k hN
  have hFits := h.fits _ hi
  have hHolder := hRest _ hi
  have hHead := h.head_le
  have hTail := h.tail_le
  have hPos := h.pos_eq hN (k := k)
  generalize r.cell (k % N) = x at *
  obtain ⟨pos, hold⟩ := x
  cases hold with
  | free | stored =>
    simp only [Fits] at hFits hPos
    exact hPos (by omega) (by omega)
  | pushing | popping | forcing => cases hHolder

theorem Rest.stored {k : ℕ} (hLow : r.head ≤ k) (hHigh : k < r.tail) :
    r.cell (k % N) = ⟨k, .stored⟩ := by
  have hi := Nat.mod_lt k hN
  have hTail := h.tail_le
  have hFits := h.fits _ hi
  have hHolder := hRest _ hi
  have hPos := Rest.pos h hRest hN hLow (hHigh.trans_le hTail)
  generalize r.cell (k % N) = x at *
  obtain ⟨pos, hold⟩ := x
  cases hold with
  | free =>
    simp only [Fits] at hFits hPos
    omega
  | stored => rw [← hPos]
  | pushing | popping | forcing => cases hHolder

theorem Rest.free {k : ℕ} (hLow : r.tail ≤ k) (hHigh : k < r.head + N) :
    r.cell (k % N) = ⟨k, .free⟩ := by
  have hi := Nat.mod_lt k hN
  have hHead := h.head_le
  have hFits := h.fits _ hi
  have hHolder := hRest _ hi
  have hPos := Rest.pos h hRest hN (hHead.trans hLow) hHigh
  generalize r.cell (k % N) = x at *
  obtain ⟨pos, hold⟩ := x
  cases hold with
  | free => rw [← hPos]
  | stored =>
    simp only [Fits] at hFits hPos
    omega
  | pushing | popping | forcing => cases hHolder

end Rest

end Ring

theorem exists_position {N h i : ℕ} (hi : i < N) : ∃ j < N, (h + j) % N = i := by
  have hDiv := Nat.div_add_mod h N
  obtain hlt | hge := Nat.lt_or_ge i (h % N)
  · refine ⟨i + N - h % N, by omega, ?_⟩
    have hSum : h + (i + N - h % N) = i + N * (h / N + 1) := by
      rw [Nat.mul_succ]
      have hMod := Nat.mod_lt h (Nat.zero_lt_of_lt hi)
      omega
    rw [hSum, Nat.add_mul_mod_self_left, Nat.mod_eq_of_lt hi]
  · refine ⟨i - h % N, by omega, ?_⟩
    have hSum : h + (i - h % N) = i + N * (h / N) := by omega
    rw [hSum, Nat.add_mul_mod_self_left, Nat.mod_eq_of_lt hi]

theorem add_mod_of_lt {N h i : ℕ} (hi : i < N) :
    (h + i) % N = if h % N + i < N then h % N + i else h % N + i - N := by
  have hMod := Nat.mod_lt h (Nat.zero_lt_of_lt hi)
  rw [Nat.add_mod, Nat.mod_eq_of_lt hi]
  split
  · rename_i hLt
    exact Nat.mod_eq_of_lt hLt
  · rw [Nat.mod_eq_sub_mod (by omega), Nat.mod_eq_of_lt (by omega)]

theorem add_mod_inj {N h i j : ℕ} (hi : i < N) (hj : j < N) (hMod : (h + i) % N = (h + j) % N) :
    i = j := by
  have hNear := Nat.mod_lt h (Nat.zero_lt_of_lt hi)
  rw [add_mod_of_lt hi, add_mod_of_lt hj] at hMod
  split at hMod <;> split at hMod <;> omega

/-- The case split of `len` and `Drop::drop` returns the distance of tail from head. -/
theorem Config.lenOf_enc (c : Config) {h d : ℕ} (hd : d ≤ c.N) :
    c.lenOf (c.enc h) (c.enc (h + d)) = d := by
  have hN := c.pos
  have hK := c.four_mul_N_le_K
  have hMod := mod_lt c h
  simp only [Config.lenOf, index_enc]
  obtain hlt | rfl := Nat.lt_or_eq_of_le hd
  · rw [add_mod_of_lt hlt]
    split <;> rename_i hWrap
    · obtain rfl | hPos := Nat.eq_zero_or_pos d
      · simp
      · rw [if_pos (by omega)]
        omega
    · rw [if_neg (by omega), if_pos (by omega)]
      omega
  · have hne : c.enc (h + c.N) ≠ c.enc h := by
      intro hEq
      have hSame := c.eq_of_enc_eq hEq (by omega) (by omega)
      omega
    rw [Nat.add_mod_right, if_neg (lt_irrefl _), if_neg (lt_irrefl _), if_neg hne]

/-- The number of slots that hold a live value. -/
def Queue.stored (q : Queue c α) : ℕ :=
  ((List.range c.N).filter fun i => (q.buffer i).value.isSome).length

/-- The queue represents the ring, and no slot is held. -/
structure AtRest (c : Config) (r : Ring ι α) (q : Queue c α) : Prop where
  ok : r.Ok c.N
  rest : r.Rest c.N
  mem : Mem c r q

namespace AtRest

variable {r : Ring ι α} {q : Queue c α} {k : ℕ} (h : AtRest c r q)

include h

theorem half : r.half = none := Ring.Rest.half h.ok h.rest c.pos

theorem log_length : r.log.length = r.tail := Ring.Rest.log_length h.ok h.rest c.pos

theorem items_length : r.items.length = r.tail - r.head :=
  Ring.Rest.items_length h.ok h.rest c.pos

theorem cell_stored (hLow : r.head ≤ k) (hHigh : k < r.tail) :
    r.cell (k % c.N) = ⟨k, .stored⟩ := Ring.Rest.stored h.ok h.rest c.pos hLow hHigh

theorem cell_free (hLow : r.tail ≤ k) (hHigh : k < r.head + c.N) :
    r.cell (k % c.N) = ⟨k, .free⟩ := Ring.Rest.free h.ok h.rest c.pos hLow hHigh

theorem stored_value (hLow : r.head ≤ k) (hHigh : k < r.tail) :
    Carried r k (q.buffer (k % c.N)).value := by
  have hCell := h.cell_stored hLow hHigh
  have hCarried := h.mem.stored _ (mod_lt c k) (by rw [hCell])
  rwa [hCell] at hCarried

theorem free_value (hLow : r.tail ≤ k) (hHigh : k < r.head + c.N) :
    (q.buffer (k % c.N)).value = none :=
  h.mem.free _ (mod_lt c k) (by rw [h.cell_free hLow hHigh])

theorem lenOf_eq : c.lenOf q.head q.tail = r.tail - r.head := by
  have hHead := h.ok.head_le
  have hTail := h.ok.tail_le
  have hDist := c.lenOf_enc (h := r.head) (d := r.tail - r.head) (by omega)
  rwa [Nat.add_sub_cancel' hHead, ← h.mem.head, ← h.mem.tail] at hDist

theorem dropIndices_eq :
    q.dropIndices = (List.range (r.tail - r.head)).map fun i => (r.head + i) % c.N := by
  have hTail := h.ok.tail_le
  rw [Queue.dropIndices, h.lenOf_eq]
  apply List.map_congr_left
  intro i hi
  rw [List.mem_range] at hi
  rw [h.mem.head, c.index_enc, add_mod_of_lt (by omega)]

theorem dropValues_eq :
    (q.dropIndices.map fun i => (q.buffer i).value) = r.items.map some := by
  rw [h.dropIndices_eq, List.map_map]
  apply List.ext_getElem?
  intro i
  rw [List.getElem?_map, List.getElem?_map, Ring.items, List.getElem?_drop]
  obtain hlt | hge := Nat.lt_or_ge i (r.tail - r.head)
  · rw [List.getElem?_range hlt]
    obtain ⟨x, hx, hValue⟩ := h.stored_value (k := r.head + i) (by omega) (by omega)
    rw [hx]
    exact congrArg some hValue
  · have hLength := h.log_length
    rw [List.getElem?_eq_none (by simpa using hge), List.getElem?_eq_none (by omega)]
    rfl

theorem mem_dropIndices_iff (i : ℕ) :
    i ∈ q.dropIndices ↔ i < c.N ∧ (q.buffer i).value.isSome := by
  have hTail := h.ok.tail_le
  rw [h.dropIndices_eq]
  constructor
  · intro hi
    obtain ⟨j, hj, rfl⟩ := List.mem_map.mp hi
    rw [List.mem_range] at hj
    obtain ⟨x, -, hValue⟩ := h.stored_value (k := r.head + j) (by omega) (by omega)
    exact ⟨mod_lt c _, by rw [hValue]; rfl⟩
  · rintro ⟨hi, hLive⟩
    obtain ⟨j, hj, rfl⟩ := exists_position (h := r.head) hi
    refine List.mem_map.mpr ⟨j, List.mem_range.mpr ?_, rfl⟩
    by_contra hOut
    rw [h.free_value (by omega) (by omega)] at hLive
    cases hLive

theorem dropIndices_nodup : q.dropIndices.Nodup := by
  have hTail := h.ok.tail_le
  rw [h.dropIndices_eq]
  apply List.Nodup.map_on ?_ List.nodup_range
  intro i hi j hj hSame
  rw [List.mem_range] at hi hj
  exact add_mod_inj (by omega) (by omega) hSame

theorem stored_eq : q.stored = r.tail - r.head := by
  have hPerm : q.dropIndices.Perm
      ((List.range c.N).filter fun i => (q.buffer i).value.isSome) := by
    apply (List.perm_ext_iff_of_nodup h.dropIndices_nodup (List.nodup_range.filter _)).mpr
    intro i
    rw [h.mem_dropIndices_iff, List.mem_filter, List.mem_range]
  rw [Queue.stored, ← hPerm.length_eq, h.dropIndices_eq, List.length_map, List.length_range]

end AtRest

theorem Represents.atRest {m : Monitored c ι α} {r : Ring ι α} (h : Represents m r)
    (hOwns : ∀ t, (m.pc t).owns = none) : AtRest c r m.queue where
  ok := h.ok
  rest := by
    intro i hi
    cases hHolder : (r.cell i).hold.holder with
    | none => rfl
    | some t => cases (hOwns t).symm.trans (h.holder i hi t hHolder)
  mem := h.mem

namespace Queue

theorem dropSlots_values {q : Queue c α} {slots : List ℕ} (hNodup : slots.Nodup) :
    (q.dropSlots slots).1 = slots.map fun i => (q.buffer i).value := by
  induction slots generalizing q with
  | nil => rfl
  | cons i slots ih =>
    obtain ⟨hi, hSlots⟩ := List.nodup_cons.mp hNodup
    simp only [dropSlots, ih hSlots, List.map_cons, List.cons.injEq, true_and]
    apply List.map_congr_left
    intro j hj
    exact setValue_value_of_ne q none (ne_of_mem_of_not_mem hj hi)

end Queue

end NureQueue
