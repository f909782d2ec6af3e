import NureQueue.Lib.FifoOrder
import NureQueue.Sequential

/-! # What the clients of the queue see

The bounded queue is a FIFO queue in the sense of the library, where a value that
`force_push` replaces counts as handed out to its caller. While no call owns a slot, a
thread that runs alone finds the queue that the calls so far have left.
-/

namespace NureQueue

open Linearizability

universe u v

variable {c : Config} {ι : Type v} {α : Type u}

/-- `push` and `force_push` offer their value; an `Err` of `push` is that value again, and
all other values in results come out of the queue. -/
def interface : Interface (Op α) (Ret α) α where
  offers
    | .push value | .forcePush value => some value
    | .pop | .isEmpty | .isFull | .len => none
  accepts
    | .pushOk | .forcePush _ => true
    | .pushErr _ | .pop _ | .isEmpty _ | .isFull _ | .len _ => false
  takes
    | .forcePush (some old) => old
    | .pop (some msg) => msg
    | .pushOk | .pushErr _ | .forcePush none | .pop none | .isEmpty _ | .isFull _ | .len _ => none
  empty
    | .pop none => true
    | .pushOk | .pushErr _ | .forcePush _ | .pop (some _) | .isEmpty _ | .isFull _ | .len _ =>
      false

theorem fifo_push_cases (N : ℕ) (xs : List α) (value : α) :
    (fifo N).apply xs (.push value) = (xs ++ [value], .pushOk) ∨
    (fifo N).apply xs (.push value) = (xs, .pushErr value) := by
  obtain hRoom | hFull := Nat.lt_or_ge xs.length N
  · exact .inl (if_pos hRoom)
  · exact .inr (if_neg (Nat.not_lt.mpr hFull))

theorem fifo_forcePush_cases (N : ℕ) (xs : List α) (value : α) :
    (fifo N).apply xs (.forcePush value) = (xs ++ [value], .forcePush none) ∨
    (fifo N).apply xs (.forcePush value) = (xs.tail ++ [value], .forcePush (some xs.head?)) := by
  obtain hRoom | hFull := Nat.lt_or_ge xs.length N
  · exact .inl (if_pos hRoom)
  · exact .inr (if_neg (Nat.not_lt.mpr hFull))

theorem fifo_isFifo (N : ℕ) : (interface (α := α)).IsFifo (fifo N) := by
  constructor
  · rfl
  · intro xs op
    cases op with
    | push value =>
      obtain hApply | hApply := fifo_push_cases N xs value
      · rw [hApply]
        rfl
      · rw [hApply]
        exact List.append_nil xs
    | forcePush value =>
      obtain hApply | hApply := fifo_forcePush_cases N xs value
      · rw [hApply]
        rfl
      · rw [hApply]
        cases xs <;> rfl
    | pop =>
      cases xs with
      | nil => rfl
      | cons x xs => exact List.append_nil (x :: xs)
    | isEmpty | isFull | len => exact List.append_nil xs
  · intro xs op hEmpty
    cases op with
    | push value =>
      obtain hApply | hApply := fifo_push_cases N xs value
      · rw [hApply] at hEmpty
        cases hEmpty
      · rw [hApply] at hEmpty
        cases hEmpty
    | forcePush value =>
      obtain hApply | hApply := fifo_forcePush_cases N xs value
      · rw [hApply] at hEmpty
        cases hEmpty
      · rw [hApply] at hEmpty
        cases hEmpty
    | pop =>
      cases xs with
      | nil => rfl
      | cons x xs => cases hEmpty
    | isEmpty | isFull | len => cases hEmpty

section Runs

variable [DecidableEq ι] [DecidableEq α] {m : Monitored c ι α} {labels : List (Label ι α)}

/-- In every state of a timely run in which no call owns a slot, wherever the calls in flight
are, calls made one after another by a thread that runs alone give the results of the
deque, from the elements that an order of the calls so far has left. -/
theorem alone_refines_deque (hRun : (Monitored.new c ι α).TimelyRun labels m)
    (hUnowned : ∀ t, (m.pc t).owns = none) :
    ∃ order, Linearizes (fifo c.N) (history labels) order ∧
      ∀ calls, ∃ n, ∀ fuel, n ≤ fuel → ∃ outcomes,
        m.queue.performAll fuel calls = some outcomes ∧
        outcomes.map Outcome.ret = (fifo c.N).results
          ((fifo c.N).after [] (order.map fun x => (x.op, x.ret))) (calls.map Prod.fst) ∧
        ∀ x ∈ outcomes, x.passes = 1 + x.failures := by
  obtain ⟨r, order, h, hExplains⟩ := hRun.explained
  refine ⟨order, hExplains.linearizes, ?_⟩
  have hItems : r.items = (fifo c.N).after [] (order.map fun x => (x.op, x.ret)) := hExplains.obj
  rw [← hItems]
  obtain hNone | ⟨⟨t⟩⟩ := isEmpty_or_nonempty ι
  · cases labels with
    | nil =>
      cases hRun
      have hOrder : order = [] := by
        refine List.eq_nil_iff_forall_not_mem.mpr ?_
        intro e he
        obtain ⟨t, -⟩ := hExplains.linearizes.called e he
        exact hNone.elim t
      rw [hItems, hOrder]
      exact (AtRest.new c Unit α).performAll ()
    | cons l labels => cases l <;> exact hNone.elim ‹ι›
  · exact fun calls => (h.atRest hUnowned).performAll t calls

def popBegun : List (Label (Fin 2) ℕ) :=
  [Label.call 0 (.push 1)] ++ List.replicate 5 (Label.step 0 false) ++
  [Label.ret 0 .pushOk, Label.call 1 .pop, Label.step 1 false, Label.step 1 false]

theorem alone_refines_deque_popBegun :
    let m := (Runs.exec Monitored.timelyStep (.new .one (Fin 2) ℕ) popBegun).get (by decide)
    ∃ order, Linearizes (fifo 1) (history popBegun) order ∧
      ∀ calls, ∃ n, ∀ fuel, n ≤ fuel → ∃ outcomes,
        m.queue.performAll fuel calls = some outcomes ∧
        outcomes.map Outcome.ret = (fifo 1).results
          ((fifo 1).after [] (order.map fun x => (x.op, x.ret))) (calls.map Prod.fst) ∧
        ∀ x ∈ outcomes, x.passes = 1 + x.failures :=
  alone_refines_deque (c := .one) (Option.some_get _).symm (by decide)

end Runs

end NureQueue
