import Mathlib.Data.List.Sort
import NureQueue.Lib.FifoOrder

/-! # Sequential histories

In a sequential history each call returns before the next one begins. Real time orders all
its calls, so the calls as they stand are the only order that can explain it.
-/

namespace Linearizability

universe u v w x

variable {ι : Type u} {Op : Type v} {Ret : Type w} {σ : Type x}

/-- Whole calls, one after another. -/
def sequential : List (ι × Op × Ret) → History ι Op Ret
  | [] => []
  | (t, op, r) :: calls => .call t op :: .ret t r :: sequential calls

theorem sequential_append (first second : List (ι × Op × Ret)) :
    sequential (first ++ second) = sequential first ++ sequential second := by
  induction first with
  | nil => rfl
  | cons x first ih =>
    obtain ⟨t, op, r⟩ := x
    simp only [List.cons_append, sequential, ih]

section Positions

variable {calls : List (ι × Op × Ret)} {t : ι} {op : Op} {r : Ret} {i j k : ℕ}

theorem sequential_call (calls : List (ι × Op × Ret)) (i : ℕ) :
    (sequential calls)[2 * i]? = calls[i]?.map fun x => .call x.1 x.2.1 := by
  induction calls generalizing i with
  | nil => rfl
  | cons x calls ih =>
    cases i with
    | zero => rfl
    | succ i => exact ih i

theorem sequential_ret (calls : List (ι × Op × Ret)) (i : ℕ) :
    (sequential calls)[2 * i + 1]? = calls[i]?.map fun x => .ret x.1 x.2.2 := by
  induction calls generalizing i with
  | nil => rfl
  | cons x calls ih =>
    cases i with
    | zero => rfl
    | succ i => exact ih i

theorem sequential_returned (h : calls[i]? = some (t, op, r)) :
    Returned (sequential calls) (2 * i) (2 * i + 1) r := by
  refine ⟨t, op, ?_, ?_, Nat.lt_succ_self _, fun k e hLow hHigh => by omega⟩
  · rw [sequential_call, h]
    rfl
  · rw [sequential_ret, h]
    rfl

theorem sequential_precedes (h : calls[i]? = some (t, op, r)) (hij : i < j) :
    Precedes (sequential calls) (2 * i) (2 * j) :=
  ⟨_, r, sequential_returned h, by omega⟩

theorem sequential_called (h : (sequential calls)[k]? = some (.call t op)) :
    ∃ i r, k = 2 * i ∧ calls[i]? = some (t, op, r) := by
  have hParity : k = 2 * (k / 2) ∨ k = 2 * (k / 2) + 1 := by omega
  generalize k / 2 = i at hParity
  obtain rfl | rfl := hParity
  · rw [sequential_call] at h
    obtain ⟨⟨t', op', r⟩, hCall, hEq⟩ := Option.map_eq_some_iff.mp h
    cases hEq
    exact ⟨i, r, rfl, hCall⟩
  · rw [sequential_ret] at h
    obtain ⟨x, -, hEq⟩ := Option.map_eq_some_iff.mp h
    cases hEq

end Positions

/-- The order of the calls as they stand. -/
def entries (calls : List (ι × Op × Ret)) : List (Entry Op Ret) :=
  calls.zipIdx.map fun x => ⟨2 * x.2, x.1.2.1, x.1.2.2⟩

section Order

variable {O : Object Op Ret σ} {calls : List (ι × Op × Ret)} {order : List (Entry Op Ret)}
variable {e : Entry Op Ret}

theorem mem_entries : e ∈ entries calls ↔
    ∃ i t, e.call = 2 * i ∧ calls[i]? = some (t, e.op, e.ret) := by
  rw [entries, List.mem_map]
  constructor
  · rintro ⟨⟨⟨t, op, r⟩, i⟩, hx, rfl⟩
    exact ⟨i, t, rfl, List.mk_mem_zipIdx_iff_getElem?.mp hx⟩
  · rintro ⟨i, t, hCall, hx⟩
    refine ⟨((t, e.op, e.ret), i), List.mk_mem_zipIdx_iff_getElem?.mpr hx, ?_⟩
    rw [← hCall]

theorem entries_pairwise (calls : List (ι × Op × Ret)) :
    (entries calls).Pairwise fun x y => x.call < y.call := by
  refine List.pairwise_map.mpr (List.pairwise_iff_getElem.mpr ?_)
  intro i j hi hj hij
  simp only [List.getElem_zipIdx]
  omega

theorem Linearizes.mem_iff_of_sequential (hl : Linearizes O (sequential calls) order) :
    e ∈ order ↔ ∃ i t, e.call = 2 * i ∧ calls[i]? = some (t, e.op, e.ret) := by
  constructor
  · intro he
    obtain ⟨t, hCalled⟩ := hl.called e he
    obtain ⟨i, r, hi, hCall⟩ := sequential_called hCalled
    have hReturned := sequential_returned hCall
    rw [← hi] at hReturned
    have hEntry := hl.entry_eq he (hl.entry hCalled hReturned) rfl
    have hRet : e.ret = r := congrArg Entry.ret hEntry
    exact ⟨i, t, hi, hRet ▸ hCall⟩
  · rintro ⟨i, t, hi, hCall⟩
    have hEntry := hl.entry ((sequential_call calls i).trans (congrArg _ hCall))
      (sequential_returned hCall)
    rw [← hi] at hEntry
    exact hEntry

theorem Linearizes.pairwise_of_sequential (hl : Linearizes O (sequential calls) order) :
    order.Pairwise fun x y => x.call < y.call := by
  have hDistinct := List.pairwise_map.mp hl.nodup
  refine (hl.realTime.and hDistinct).imp_of_mem ?_
  rintro a b ha hb ⟨hTime, hne⟩
  obtain ⟨i, t, hi, hCall⟩ := hl.mem_iff_of_sequential.mp ha
  obtain ⟨j, t', hj, hCall'⟩ := hl.mem_iff_of_sequential.mp hb
  by_contra hNot
  apply hTime
  rw [hi, hj]
  exact sequential_precedes hCall' (by omega)

/-- A sequential history is explained by its own calls or not at all. -/
theorem Linearizable.legal_of_sequential (h : Linearizable O (sequential calls)) :
    O.Legal O.init (calls.map Prod.snd) := by
  obtain ⟨order, hl⟩ := h
  have hIrrefl : Std.Irrefl fun x y : Entry Op Ret => x.call < y.call := ⟨fun _ => Nat.lt_irrefl _⟩
  have hAntisymm : Std.Antisymm fun x y : Entry Op Ret => x.call < y.call :=
    ⟨fun _ _ hab hba => absurd hab (Nat.lt_asymm hba)⟩
  have hOrder : order = entries calls :=
    hl.pairwise_of_sequential.eq_of_mem_iff (entries_pairwise calls)
      fun e => hl.mem_iff_of_sequential.trans mem_entries.symm
  have hLegal := hl.legal
  have hCalls : (entries calls).map (fun e => (e.op, e.ret)) = calls.map Prod.snd := by
    rw [entries, List.map_map]
    conv_rhs => rw [← List.zipIdx_map_fst 0 calls, List.map_map]
    rfl
  rwa [hOrder, hCalls] at hLegal

end Order

end Linearizability
