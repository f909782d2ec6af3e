import NureQueue.Alone
import NureQueue.Fifo
import NureQueue.Rest

/-! # Calls one after another refine the deque

A queue at rest stays at rest through a call that runs alone, and the call gives the
result of the deque. The positions of the ring are unbounded, so nothing changes when
the words wrap.
-/

namespace NureQueue

universe u v

variable {c : Config} {ι : Type v} {α : Type u}

namespace Mem

variable {r : Ring ι α} {q : Queue c α} (h : Mem c r q) (hOk : r.Ok c.N)

include h hOk

theorem tail_eq_head_iff : q.tail = q.head ↔ r.tail = r.head := by
  have hN := c.pos
  have hK := c.four_mul_N_le_K
  have hTail := hOk.tail_le
  rw [h.tail, h.head, c.enc_inj hOk.head_le (by omega)]

theorem head_add_eq_tail_iff : q.head + c.oneLap = q.tail ↔ r.head + c.N = r.tail := by
  have hN := c.pos
  have hK := c.four_mul_N_le_K
  have hHead := hOk.head_le
  rw [h.tail, h.head, ← c.enc_add_N, c.enc_inj hOk.tail_le (by omega)]

theorem pushFree_iff : q.PushFree ↔ r.cell (r.tail % c.N) = ⟨r.tail, .free⟩ := by
  have hN := c.pos
  have hK := c.four_mul_N_le_K
  rw [Queue.PushFree, h.tail, h.stamp_enc]
  constructor
  · intro hStamp
    have hRecent := Recent.of_tail hOk le_rfl (by omega)
    exact hOk.free_of_version hN (hRecent.version_of_stamp hOk hStamp).ge
  · intro hCell
    rw [hCell]
    rfl

theorem pushFull_iff :
    q.PushFull ↔ r.tail = r.head + c.N ∧ r.cell (r.head % c.N) = ⟨r.head, .stored⟩ := by
  have hN := c.pos
  have hK := c.four_mul_N_le_K
  rw [Queue.PushFull, h.head_add_eq_tail_iff hOk, and_comm, eq_comm]
  refine and_congr_right fun hFull => ?_
  have hSlot : r.tail % c.N = r.head % c.N := by rw [hFull, Nat.add_mod_right]
  rw [h.tail, h.stamp_enc]
  constructor
  · intro hStamp
    have hRecent := Recent.of_tail hOk le_rfl (by omega)
    have hVersion := hRecent.version_of_stamp_lap hOk hStamp
    rw [hSlot] at hVersion
    exact hOk.stored_of_version hN (by omega)
  · intro hCell
    rw [hSlot, hCell, hFull, c.enc_add_N]
    change c.enc r.head + 1 + c.oneLap = c.enc r.head + c.oneLap + 1
    rw [BitVec.add_assoc, BitVec.add_comm 1, ← BitVec.add_assoc]

theorem popReady_iff : q.PopReady ↔ r.cell (r.head % c.N) = ⟨r.head, .stored⟩ := by
  have hN := c.pos
  have hK := c.four_mul_N_le_K
  rw [Queue.PopReady, h.head, h.stamp_enc]
  constructor
  · intro hStamp
    have hRecent := Recent.of_head (c := c) (r := r) le_rfl (by omega)
    exact hOk.stored_of_version hN (hRecent.version_of_stamp_succ hOk hStamp).ge
  · intro hCell
    rw [hCell]
    rfl

theorem popEmpty_iff :
    q.PopEmpty ↔ r.head = r.tail ∧ r.cell (r.head % c.N) = ⟨r.head, .free⟩ := by
  have hN := c.pos
  have hK := c.four_mul_N_le_K
  rw [Queue.PopEmpty, h.tail_eq_head_iff hOk, and_comm, eq_comm]
  refine and_congr_right fun hEmpty => ?_
  rw [h.head, h.stamp_enc]
  constructor
  · intro hStamp
    have hRecent := Recent.of_head (c := c) (r := r) le_rfl (by omega)
    have hVersion := hRecent.version_of_stamp hOk hStamp
    rw [hEmpty] at hVersion ⊢
    exact hOk.free_of_version hN hVersion.ge
  · intro hCell
    rw [hCell]
    rfl

end Mem

namespace AtRest

theorem new (c : Config) (ι : Type v) (α : Type u) :
    AtRest c (Ring.start ι α) (Queue.new c α) where
  ok := Ring.start_ok
  rest _ _ := rfl
  mem := Mem.new c ι α

variable {r : Ring ι α} {q : Queue c α} (h : AtRest c r q) (t : ι) (value : α)

include h

theorem pushFree (hRoom : r.tail < r.head + c.N) : q.PushFree :=
  (h.mem.pushFree_iff h.ok).mpr (h.cell_free le_rfl hRoom)

theorem pushFull (hFull : r.tail = r.head + c.N) : q.PushFull := by
  have hN := c.pos
  exact (h.mem.pushFull_iff h.ok).mpr ⟨hFull, h.cell_stored le_rfl (by omega)⟩

theorem popReady (hSome : r.head < r.tail) : q.PopReady :=
  (h.mem.popReady_iff h.ok).mpr (h.cell_stored le_rfl hSome)

theorem popEmpty (hEmpty : r.head = r.tail) : q.PopEmpty := by
  have hN := c.pos
  exact (h.mem.popEmpty_iff h.ok).mpr ⟨hEmpty, h.cell_free hEmpty.ge (by omega)⟩

theorem rest_settle {s : Ring ι α} {k : ℕ} {x y : Cell ι}
    (hCell : s.cell = Function.update r.cell (k % c.N) y) (hx : x.hold.holder = none) :
    (s.settle c.N k x).Rest c.N := by
  intro i hi
  obtain rfl | hne := eq_or_ne i (k % c.N)
  · rw [Ring.settle_cell_self, hx]
  · rw [Ring.settle_cell_of_ne s x hne, hCell, Function.update_of_ne hne]
    exact h.rest i hi

theorem pushed (hRoom : r.tail < r.head + c.N) :
    AtRest c ((r.claimPush c.N t value).settle c.N r.tail ⟨r.tail, .stored⟩) (q.pushed value) := by
  have hCell := h.cell_free le_rfl hRoom
  have hClaimed := (h.ok.claimPush (t := t) (v := value) c.pos hCell)
  have hMem := h.mem.claimPush (t := t) (v := value) hCell
  have hIndex : c.index q.tail = r.tail % c.N := by rw [h.mem.tail, c.index_enc]
  have hSlot := Ring.claimPush_cell_self (N := c.N) r t value
  refine ⟨hClaimed.publish c.pos hSlot, h.rest_settle rfl rfl, ?_⟩
  rw [Queue.pushed, hIndex]
  have hWritten := hMem.setValue (t := t) (i := r.tail % c.N) (x := some value)
    (by rw [hSlot]; rfl)
  have hSettled := hWritten.settle (k := r.tail) (x := ⟨r.tail, .stored⟩) (by simp) ?_
  · rw [h.mem.tail] at hSettled ⊢
    exact hSettled
  · intro _
    refine ⟨value, ?_, Queue.setValue_value_self _ _ _⟩
    rw [Ring.claimPush, List.getElem?_append_right h.log_length.le]
    simp [h.log_length]

theorem forced (hFull : r.tail = r.head + c.N) :
    AtRest c ((r.claimForce c.N t value).storeTail.settle c.N r.head ⟨r.head + c.N, .stored⟩)
      (q.forced value) := by
  have hN := c.pos
  have hCell := h.cell_stored le_rfl (show r.head < r.tail by omega)
  have hFree : ∀ i < c.N, (r.cell i).hold.holder ≠ some t := by
    intro i hi hHolder
    cases (h.rest i hi).symm.trans hHolder
  have hClaimed := h.ok.claimForce (v := value) hN hFull hCell hFree
  have hStored := hClaimed.storeTail hN (t := t) rfl
  have hMem := (h.mem.claimForce (t := t) (v := value) hCell).storeTail
  have hSlot := Ring.claimForce_cell_self (N := c.N) r t value
  have hTail : q.tail = c.enc (r.head + c.N) := by rw [h.mem.tail, hFull]
  refine ⟨hStored.publishForce hN hSlot nofun, h.rest_settle rfl rfl, ?_⟩
  have hWritten := hMem.setValue (t := t) (i := r.head % c.N) (x := some value)
    (show ((r.claimForce c.N t value).cell (r.head % c.N)).hold.holder = some t by rw [hSlot]; rfl)
  have hSettled := hWritten.settle (k := r.head) (x := ⟨r.head + c.N, .stored⟩) nofun ?_
  · rw [Queue.forced, hTail, c.index_enc, Nat.add_mod_right, next_enc_sub_oneLap, c.next_enc]
    have hNew : (r.claimForce c.N t value).tail + 1 = r.head + c.N + 1 := congrArg (· + 1) hFull
    rw [hNew] at hSettled
    exact hSettled
  · intro _
    refine ⟨value, ?_, Queue.setValue_value_self _ _ _⟩
    have hLength : r.log.length = r.head + c.N := h.log_length.trans hFull
    change (r.log ++ [value])[r.head + c.N]? = some value
    rw [List.getElem?_append_right hLength.le, hLength]
    simp

theorem popped (hSome : r.head < r.tail) :
    AtRest c ((r.claimPop c.N t).settle c.N r.head ⟨r.head + c.N, .free⟩) q.popped := by
  have hCell := h.cell_stored le_rfl hSome
  have hIndex : c.index q.head = r.head % c.N := by rw [h.mem.head, c.index_enc]
  have hSlot := Ring.claimPop_cell_self (N := c.N) r t
  refine ⟨(h.ok.claimPop c.pos hCell).release c.pos hSlot, h.rest_settle rfl rfl, ?_⟩
  have hTaken := (h.mem.claimPop (t := t) hCell).setValue (t := t) (i := r.head % c.N)
    (x := none) (by rw [hSlot]; rfl)
  have hSettled := hTaken.settle (k := r.head) (x := ⟨r.head + c.N, .free⟩)
    (fun _ => Queue.setValue_value_self _ _ _) nofun
  rw [Queue.popped, hIndex]
  rw [Cell.stamp, c.enc_add_N, ← h.mem.head] at hSettled
  exact hSettled

theorem oldest_value (hSome : r.head < r.tail) :
    ∃ x, r.items.head? = some x ∧ (q.buffer (r.head % c.N)).value = some x := by
  obtain ⟨x, hx, hValue⟩ := h.stored_value le_rfl hSome
  exact ⟨x, by rw [head?_items, hx], hValue⟩

theorem push_result (hRoom : r.items.length < c.N) (t : ι) (f : Closure) :
    ∃ q' r', AtRest (ι := ι) c r' q' ∧ r'.items = r.items ++ [value] ∧
      ∀ flags a b, Alone.Finishes flags ⟨q, .pushLoad f value, a, b⟩ q' f.ok := by
  have hHead := h.ok.head_le
  have hLength := h.items_length
  have hBelow : r.tail < r.head + c.N := by omega
  refine ⟨_, _, h.pushed t value hBelow, items_snoc r ?_ value, ?_⟩
  · rw [h.log_length]
    exact hHead
  · intro flags a b
    exact Alone.push_finishes (h.pushFree hBelow) f

theorem forcePush_result (hFull : r.items.length = c.N) (t : ι) :
    ∃ q' r', AtRest (ι := ι) c r' q' ∧ r'.items = r.items.tail ++ [value] ∧
      ∀ flags a b, Alone.Finishes flags ⟨q, .pushLoad .forcePush value, a, b⟩ q'
        (.forcePush (some r.items.head?)) := by
  have hN := c.pos
  have hHead := h.ok.head_le
  have hLength := h.items_length
  have hTail : r.tail = r.head + c.N := by omega
  obtain ⟨x, hx, hValue⟩ := h.oldest_value (by omega)
  have hOld : (q.buffer (c.index q.tail)).value = r.items.head? := by
    rw [h.mem.tail, c.index_enc, hTail, Nat.add_mod_right, hValue, hx]
  refine ⟨_, _, h.forced t value hTail, ?_, ?_⟩
  · rw [Ring.items, Ring.items, List.tail_drop]
    apply List.drop_append_of_le_length
    change r.head + 1 ≤ r.log.length
    rw [h.log_length]
    omega
  · intro flags a b
    rw [← hOld]
    exact Alone.forcePush_finishes (h.pushFull hTail)

theorem pop_result (hSome : r.head < r.tail) (t : ι) :
    ∃ q' r', AtRest (ι := ι) c r' q' ∧ r'.items = r.items.tail ∧
      ∀ flags a b, Alone.Finishes flags ⟨q, .popLoad, a, b⟩ q'
        (.pop (r.items.head?.map some)) := by
  obtain ⟨x, hx, hValue⟩ := h.oldest_value hSome
  have hMsg : (q.buffer (c.index q.head)).value = some x := by
    rw [h.mem.head, c.index_enc, hValue]
  refine ⟨_, _, h.popped t hSome, ?_, ?_⟩
  · rw [Ring.items, Ring.items, List.tail_drop]
    rfl
  · intro flags a b
    rw [hx, Option.map_some, ← hMsg]
    exact Alone.pop_finishes (h.popReady hSome)

theorem items_eq_nil_iff : r.items = [] ↔ r.head = r.tail := by
  have hHead := h.ok.head_le
  have hLength := h.items_length
  rw [← List.length_eq_zero_iff]
  omega

theorem length_eq_N_iff : r.items.length = c.N ↔ r.tail = r.head + c.N := by
  have hHead := h.ok.head_le
  have hLength := h.items_length
  omega

/-- A call that runs alone on a queue at rest gives the deque's result, and leaves the
queue at rest with the deque's elements. -/
theorem finishes (t : ι) (op : Op α) : ∃ q' r', AtRest (ι := ι) c r' q' ∧
    r'.items = ((fifo c.N).apply r.items op).1 ∧
    ∀ flags a b, Alone.Finishes flags ⟨q, op.start, a, b⟩ q'
      ((fifo c.N).apply r.items op).2 := by
  have hHead := h.ok.head_le
  have hTail := h.ok.tail_le
  have hLength := h.items_length
  cases op with
  | push value =>
    obtain hRoom | hFull := Nat.lt_or_ge r.items.length c.N
    · rw [show (fifo c.N).apply r.items (.push value) = _ from fifo_push_of_lt hRoom .push]
      exact h.push_result value hRoom t .push
    · have hFull' : r.items.length = c.N := by omega
      rw [fifo_push_of_full hFull']
      refine ⟨q, r, h, rfl, fun flags a b => ?_⟩
      exact Alone.pushFull_finishes (h.pushFull (h.length_eq_N_iff.mp hFull'))
  | forcePush value =>
    obtain hRoom | hFull := Nat.lt_or_ge r.items.length c.N
    · rw [show (fifo c.N).apply r.items (.forcePush value) = _ from
        fifo_push_of_lt hRoom .forcePush]
      exact h.push_result value hRoom t .forcePush
    · have hFull' : r.items.length = c.N := by omega
      rw [fifo_forcePush_of_full hFull']
      exact h.forcePush_result value hFull' t
  | pop =>
    obtain hSome | hEmpty := Nat.lt_or_ge r.head r.tail
    · exact h.pop_result hSome t
    · have hNil := h.items_eq_nil_iff.mpr (by omega)
      refine ⟨q, r, h, by rw [hNil]; rfl, fun flags a b => ?_⟩
      rw [hNil]
      exact Alone.popEmpty_finishes (h.popEmpty (by omega))
  | isEmpty =>
    refine ⟨q, r, h, rfl, fun flags a b => ?_⟩
    have hSame : (decide (q.tail = q.head)) = r.items.isEmpty := by
      rw [Bool.eq_iff_iff, decide_eq_true_iff, List.isEmpty_iff, h.mem.tail_eq_head_iff h.ok,
        h.items_eq_nil_iff, eq_comm]
    change Alone.Finishes _ _ _ (.isEmpty r.items.isEmpty)
    rw [← hSame]
    exact Alone.isEmpty_finishes
  | isFull =>
    refine ⟨q, r, h, rfl, fun flags a b => ?_⟩
    have hSame : (decide (q.head + c.oneLap = q.tail)) = decide (r.items.length = c.N) :=
      decide_eq_decide.mpr ((h.mem.head_add_eq_tail_iff h.ok).trans
        (eq_comm.trans h.length_eq_N_iff.symm))
    change Alone.Finishes _ _ _ (.isFull (r.items.length = c.N))
    rw [← hSame]
    exact Alone.isFull_finishes
  | len =>
    refine ⟨q, r, h, rfl, fun flags a b => ?_⟩
    change Alone.Finishes _ _ _ (.len r.items.length)
    rw [hLength, ← h.lenOf_eq]
    exact Alone.len_finishes

end AtRest

structure Outcome (α : Type u) where
  ret : Ret α
  passes : ℕ
  failures : ℕ

/-- A call carried out alone, in at most `fuel` accesses. -/
def Queue.perform (fuel : ℕ) (q : Queue c α) (op : Op α) (flags : List Bool) :
    Option (Outcome α × Queue c α) :=
  let x := Alone.run fuel flags ⟨q, op.start, 0, 0⟩
  match x.pc with
  | .done r => some (⟨r, x.passes, x.failures⟩, x.queue)
  | _ => none

/-- Calls one after another, each with the flags for its accesses. -/
def Queue.performAll (fuel : ℕ) (q : Queue c α) : List (Op α × List Bool) →
    Option (List (Outcome α))
  | [] => some []
  | (op, flags) :: calls =>
    (q.perform fuel op flags).bind fun (x, q') =>
      (q'.performAll fuel calls).map fun outcomes => x :: outcomes

theorem Alone.Finishes.perform {q q' : Queue c α} {op : Op α} {flags : List Bool} {x : Ret α}
    (h : Alone.Finishes flags ⟨q, op.start, 0, 0⟩ q' x) : ∃ n k, ∀ fuel, n ≤ fuel →
      q.perform fuel op flags = some (⟨x, 1 + k, k⟩, q') := by
  obtain ⟨n, k, hRun⟩ := h
  refine ⟨n, k, fun fuel hFuel => ?_⟩
  rw [Queue.perform, Alone.run_of_le hRun hFuel]
  simp

theorem AtRest.performAll {r : Ring ι α} {q : Queue c α} (h : AtRest c r q) (t : ι)
    (calls : List (Op α × List Bool)) : ∃ n, ∀ fuel, n ≤ fuel → ∃ outcomes,
      q.performAll fuel calls = some outcomes ∧
      outcomes.map Outcome.ret = (fifo c.N).results r.items (calls.map Prod.fst) ∧
      ∀ x ∈ outcomes, x.passes = 1 + x.failures := by
  induction calls generalizing r q with
  | nil => exact ⟨0, fun _ _ => ⟨[], rfl, rfl, nofun⟩⟩
  | cons call calls ih =>
    obtain ⟨op, flags⟩ := call
    obtain ⟨q', r', hNext, hItems, hFinishes⟩ := h.finishes t op
    obtain ⟨n, k, hFirst⟩ := (hFinishes flags 0 0).perform
    obtain ⟨n', hRest⟩ := ih hNext
    refine ⟨max n n', fun fuel hFuel => ?_⟩
    obtain ⟨outcomes, hAll, hRets, hPasses⟩ := hRest fuel (le_of_max_le_right hFuel)
    refine ⟨⟨((fifo c.N).apply r.items op).2, 1 + k, k⟩ :: outcomes, ?_, ?_, ?_⟩
    · simp only [Queue.performAll, hFirst fuel (le_of_max_le_left hFuel), Option.bind_some, hAll,
        Option.map_some]
    · rw [List.map_cons, hRets, hItems]
      rfl
    · exact List.forall_mem_cons.mpr ⟨rfl, hPasses⟩

/-- Every sequence of calls on a new queue, each with any finite pattern of spurious
failures, returns the results of the deque; each call needs one pass and one more for
each spurious failure. -/
theorem sequential_refines_deque (c : Config) (calls : List (Op α × List Bool)) :
    ∃ n, ∀ fuel, n ≤ fuel → ∃ outcomes,
      (Queue.new c α).performAll fuel calls = some outcomes ∧
      outcomes.map Outcome.ret = (fifo c.N).results [] (calls.map Prod.fst) ∧
      ∀ x ∈ outcomes, x.passes = 1 + x.failures :=
  (AtRest.new c Unit α).performAll () calls

end NureQueue
