import Mathlib.Algebra.BigOperators.Group.Finset.Basic
import Mathlib.Algebra.Order.Group.Multiset
import Mathlib.Data.Fintype.Basic
import Mathlib.Tactic.Abel
import NureQueue.Bounds
import NureQueue.Fifo
import NureQueue.Rest

/-! # Every value ends in one place

The values passed in are at every moment those handed back, those in the hands of calls
and those in slots. Each access moves at most one value between the last two, because it
writes only over dead memory and takes only live values. At the end no call holds a value,
and `Drop::drop` visits the slots that do.
-/

namespace NureQueue

open Linearizability

universe u v

variable {c : Config} {ι : Type v} {α : Type u}

/-- Collections of memory contents; a content without a live value shows as none. -/
abbrev Contents (α : Type u) := Multiset (MaybeUninit α)

def MaybeUninit.live : MaybeUninit α → Contents α
  | some x => {some x}
  | none => 0

def Op.passed : Op α → Contents α
  | .push value | .forcePush value => {some value}
  | _ => 0

def Ret.returned : Ret α → Contents α
  | .pushErr value => {some value}
  | .forcePush (some old) => {old}
  | .pop (some msg) => {msg}
  | _ => 0

namespace Pc

/-- What a call has in its locals and owns. -/
def hand : Pc c α → Contents α
  | .pushLoad _ value | .pushStamp _ value _ | .pushCas _ value _ | .pushWrite _ value _
  | .fullLoad value _ | .forceCas value _ | .forceStore value _ | .forceReplace value _ =>
    {some value}
  | .forcePublish _ old => {old}
  | .popPublish _ msg => {msg}
  | .done r => r.returned
  | _ => 0

end Pc

namespace Queue

def contents (q : Queue c α) : Contents α :=
  ∑ i ∈ Finset.range c.N, MaybeUninit.live (q.buffer i).value

@[simp] theorem contents_stampStore (q : Queue c α) (i : ℕ) (x : c.Index) :
    (q.stampStore i x).contents = q.contents := by
  simp [contents]

theorem contents_setValue (q : Queue c α) {i : ℕ} (hi : i < c.N) (value : MaybeUninit α) :
    (q.setValue i value).contents + MaybeUninit.live (q.buffer i).value =
      q.contents + value.live := by
  have hMem : i ∈ Finset.range c.N := Finset.mem_range.mpr hi
  have hOther : ∀ j ∈ (Finset.range c.N).erase i,
      MaybeUninit.live ((q.setValue i value).buffer j).value =
        MaybeUninit.live (q.buffer j).value := by
    intro j hj
    rw [setValue_value_of_ne q value (Finset.ne_of_mem_erase hj)]
  rw [contents, contents, ← Finset.add_sum_erase _ _ hMem, ← Finset.add_sum_erase _ _ hMem,
    Finset.sum_congr rfl hOther, setValue_value_self]
  abel

end Queue

/-- An access keeps what the call and the slots have together. -/
theorem Pc.hand_step {p p' : Pc c α} {q q' : Queue c α} {spurious : Bool} {a : Access}
    (hStep : p.step q spurious = some (a, q', p')) (hSafe : a.Safe q)
    (hSlot : ∀ i, a.slot = some i → i < c.N) :
    p'.hand + q'.contents = p.hand + q.contents := by
  cases p with
  | idle | done => cases hStep
  | pushStamp f =>
    cases hStep
    congr 1
    split
    · rfl
    · cases f <;> split <;> rfl
  | popStamp =>
    cases hStep
    congr 1
    split
    · rfl
    · split <;> rfl
  | pushCas | forceCas | popCas =>
    rw [Pc.step] at hStep
    split at hStep <;> cases hStep <;> rfl
  | fullLoad | popTail | lenCheck =>
    cases hStep
    congr 1
    split <;> rfl
  | pushWrite f value tail =>
    cases hStep
    have hSet := q.contents_setValue (hSlot _ rfl) (some value)
    have hNone : (q.buffer (c.index tail)).value = none := hSafe
    rw [hNone] at hSet
    calc (0 : Contents α) + (q.setValue (c.index tail) (some value)).contents
        = (q.setValue (c.index tail) (some value)).contents + 0 := add_comm _ _
      _ = q.contents + {some value} := hSet
      _ = {some value} + q.contents := add_comm _ _
  | popRead head =>
    cases hStep
    have hSet := q.contents_setValue (hSlot _ rfl) none
    obtain ⟨x, hx⟩ := Option.isSome_iff_exists.mp hSafe
    rw [hx] at hSet ⊢
    calc {some x} + (q.setValue (c.index head) none).contents
        = (q.setValue (c.index head) none).contents + {some x} := add_comm _ _
      _ = q.contents + 0 := hSet
      _ = 0 + q.contents := add_comm _ _
  | forceReplace value tail =>
    cases hStep
    have hSet := q.contents_setValue (hSlot _ rfl) (some value)
    obtain ⟨x, hx⟩ := Option.isSome_iff_exists.mp hSafe
    rw [hx] at hSet ⊢
    calc {some x} + (q.setValue (c.index tail) (some value)).contents
        = (q.setValue (c.index tail) (some value)).contents + {some x} := add_comm _ _
      _ = q.contents + {some value} := hSet
      _ = {some value} + q.contents := add_comm _ _
  | pushPublish f =>
    cases hStep
    rw [Queue.contents_stampStore]
    cases f <;> rfl
  | forcePublish | popPublish =>
    cases hStep
    rw [Queue.contents_stampStore]
    rfl
  | _ =>
    cases hStep
    rfl

theorem coe_map {β : Type u} (l : List ℕ) (f : ℕ → β) :
    ((l.map f : List β) : Multiset β) = (l.map fun i => ({f i} : Multiset β)).sum := by
  induction l with
  | nil => rfl
  | cons i l ih =>
    rw [List.map_cons, List.map_cons, List.sum_cons, ← ih, Multiset.singleton_add,
      Multiset.cons_coe]

theorem sum_change [Fintype ι] [DecidableEq ι] {M : Type*} [AddCommMonoid M] {f g : ι → M}
    (t : ι) (h : ∀ u, u ≠ t → g u = f u) : ∑ u, g u + f t = ∑ u, f u + g t := by
  have hMem := Finset.mem_univ t
  have hOther : ∀ u ∈ Finset.univ.erase t, g u = f u :=
    fun u hu => h u (Finset.ne_of_mem_erase hu)
  rw [← Finset.add_sum_erase _ _ hMem, ← Finset.add_sum_erase _ f hMem,
    Finset.sum_congr rfl hOther]
  abel

def Label.passed : Label ι α → Contents α
  | .call _ op => op.passed
  | _ => 0

def Label.returned : Label ι α → Contents α
  | .ret _ r => r.returned
  | _ => 0

def passedIn (labels : List (Label ι α)) : Contents α := (labels.map Label.passed).sum

def handedBack (labels : List (Label ι α)) : Contents α := (labels.map Label.returned).sum

section Runs

variable [Fintype ι] [DecidableEq ι]

def Monitored.contents (m : Monitored c ι α) : Contents α :=
  ∑ t, (m.pc t).hand + m.queue.contents

theorem sum_hand_update (pc : ι → Pc c α) (t : ι) (p : Pc c α) :
    ∑ u, (Function.update pc t p u).hand + (pc t).hand = ∑ u, (pc u).hand + p.hand := by
  have hSum := sum_change (f := fun u => (pc u).hand)
    (g := fun u => (Function.update pc t p u).hand) t
    fun u hu => by rw [Function.update_of_ne hu]
  rwa [Function.update_self] at hSum

theorem Op.start_hand (op : Op α) : (op.start : Pc c α).hand = op.passed := by
  cases op <;> rfl

variable [DecidableEq α] {m m' : Monitored c ι α}

/-- A call brings its value in, a return takes its result out, an access keeps all. -/
theorem Represents.contents_step {r : Ring ι α} {l : Label ι α} (h : Represents m r)
    (hBounded : m.toSystem.Bounded) (hStep : m.timelyStep l = some m') :
    m'.contents + l.returned = m.contents + l.passed := by
  obtain ⟨t, op, rfl, hIdle, rfl⟩ |
    ⟨t, spurious, a, q, p, rfl, -, hAccess, rfl⟩ | ⟨t, x, rfl, hDone, rfl⟩ :=
      Monitored.timelyStep_cases hStep
  · have hSum := sum_hand_update m.pc t op.start
    rw [hIdle, Op.start_hand] at hSum
    calc ∑ u, (Function.update m.pc t op.start u).hand + m.queue.contents + 0
        = (∑ u, (Function.update m.pc t op.start u).hand + 0) + m.queue.contents := by abel
      _ = (∑ u, (m.pc u).hand + op.passed) + m.queue.contents := congrArg (· + _) hSum
      _ = ∑ u, (m.pc u).hand + m.queue.contents + op.passed := by abel
  · have hSum := sum_hand_update m.pc t p
    have hMoved := Pc.hand_step hAccess (h.access_safe hAccess) fun i hi => by
      obtain ⟨x, hx, rfl⟩ := Pc.slot_step hAccess hi
      exact hBounded.words t x hx
    apply add_right_cancel (b := (m.pc t).hand)
    calc ∑ u, (Function.update m.pc t p u).hand + q.contents + 0 + (m.pc t).hand
        = (∑ u, (Function.update m.pc t p u).hand + (m.pc t).hand) + q.contents := by abel
      _ = ∑ u, (m.pc u).hand + (p.hand + q.contents) := by
        rw [hSum]
        abel
      _ = ∑ u, (m.pc u).hand + m.queue.contents + 0 + (m.pc t).hand := by
        rw [hMoved]
        abel
  · have hSum := sum_hand_update m.pc t .idle
    rw [hDone] at hSum
    calc ∑ u, (Function.update m.pc t .idle u).hand + m.queue.contents + x.returned
        = (∑ u, (Function.update m.pc t .idle u).hand + x.returned) + m.queue.contents := by abel
      _ = (∑ u, (m.pc u).hand + 0) + m.queue.contents := congrArg (· + _) hSum
      _ = ∑ u, (m.pc u).hand + m.queue.contents + 0 := by abel

omit [DecidableEq ι] [DecidableEq α] in
theorem Monitored.new_contents : (Monitored.new c ι α).contents = 0 := by
  simp [Monitored.contents, Monitored.new, System.new, Queue.contents, Queue.new, Pc.hand,
    MaybeUninit.live]

/-- At every moment of a timely run, the values passed in are those handed back, those in
the hands of calls and those in slots. -/
theorem Monitored.TimelyRun.accounting {labels : List (Label ι α)}
    (hRun : (Monitored.new c ι α).TimelyRun labels m) :
    m.contents + handedBack labels = passedIn labels := by
  suffices hInv : ((∃ r, Represents m r) ∧ m.toSystem.Bounded) ∧
      m.contents + handedBack labels = passedIn labels from hInv.2
  refine Runs.exec_induction (P := fun labels m => ((∃ r, Represents m r) ∧
    m.toSystem.Bounded) ∧ m.contents + handedBack labels = passedIn labels) ?_ ?_ labels m hRun
  · exact ⟨⟨⟨_, Represents.new c ι α⟩, .new c ι α⟩, by
      rw [Monitored.new_contents]
      rfl⟩
  · rintro labels m l n - ⟨⟨⟨r, h⟩, hBounded⟩, hTotal⟩ hStep
    refine ⟨⟨h.timelyStep hStep, hBounded.step (Monitored.timelyStep_toSystem hStep)⟩, ?_⟩
    have hNext := h.contents_step hBounded hStep
    simp only [handedBack, passedIn, List.map_append, List.sum_append, List.map_cons,
      List.map_nil, List.sum_cons, List.sum_nil, add_zero] at hTotal ⊢
    calc n.contents + ((labels.map Label.returned).sum + l.returned)
        = n.contents + l.returned + (labels.map Label.returned).sum := by abel
      _ = m.contents + (labels.map Label.returned).sum + l.passed := by
        rw [hNext]
        abel
      _ = (labels.map Label.passed).sum + l.passed := by rw [hTotal]

omit [Fintype ι] [DecidableEq ι] [DecidableEq α] in
theorem AtRest.dropped_eq {r : Ring ι α} {q : Queue c α} (h : AtRest c r q) :
    (q.drop.1 : Contents α) = q.contents := by
  have hSlots : q.dropIndices.toFinset =
      (Finset.range c.N).filter fun i => (q.buffer i).value.isSome := by
    ext i
    rw [List.mem_toFinset, h.mem_dropIndices_iff, Finset.mem_filter, Finset.mem_range]
  have hLive : ∀ i, MaybeUninit.live (q.buffer i).value =
      if (q.buffer i).value.isSome then {(q.buffer i).value} else 0 := by
    intro i
    cases (q.buffer i).value <;> rfl
  calc (q.drop.1 : Contents α)
      = (q.dropIndices.map fun i => ({(q.buffer i).value} : Contents α)).sum := by
        rw [Queue.drop, Queue.dropSlots_values h.dropIndices_nodup, coe_map]
    _ = ∑ i ∈ q.dropIndices.toFinset, {(q.buffer i).value} :=
        (List.sum_toFinset _ h.dropIndices_nodup).symm
    _ = q.contents := by
        rw [hSlots, Finset.sum_filter, Queue.contents]
        exact Finset.sum_congr rfl fun i _ => (hLive i).symm

/-- When all calls of a timely run have returned, `Drop::drop` visits exactly the slots
with a live value, each once, from the oldest to the newest element of the queue; and the
values passed in are those handed back and those dropped. -/
theorem values_end_once {labels : List (Label ι α)}
    (hRun : (Monitored.new c ι α).TimelyRun labels m) (hReturned : ∀ t, m.pc t = .idle) :
    (∀ i, i ∈ m.queue.dropIndices ↔ i < c.N ∧ (m.queue.buffer i).value.isSome) ∧
    m.queue.dropIndices.Nodup ∧
    (∃ order, Linearizes (fifo c.N) (history labels) order ∧
      m.queue.drop.1 = ((fifo c.N).after [] (order.map fun x => (x.op, x.ret))).map some) ∧
    passedIn labels = handedBack labels + (m.queue.drop.1 : Contents α) := by
  obtain ⟨r, order, h, hExplains⟩ := hRun.explained
  have hRest := h.atRest fun t => by rw [hReturned]; rfl
  refine ⟨hRest.mem_dropIndices_iff, hRest.dropIndices_nodup, ⟨order, hExplains.linearizes, ?_⟩, ?_⟩
  · have hItems : r.items = (fifo c.N).after [] (order.map fun x => (x.op, x.ret)) :=
      hExplains.obj
    rw [Queue.drop, Queue.dropSlots_values hRest.dropIndices_nodup, hRest.dropValues_eq, hItems]
  · have hTotal := hRun.accounting
    have hHands : ∑ t, (m.pc t).hand = 0 := by
      apply Finset.sum_eq_zero
      intro t _
      rw [hReturned]
      rfl
    rw [Monitored.contents, hHands, zero_add, ← hRest.dropped_eq] at hTotal
    rw [← hTotal, add_comm]

def pushThenForce : List (Label (Fin 2) ℕ) :=
  [Label.call 0 (.push 1)] ++ List.replicate 5 (Label.step 0 false) ++
  [Label.ret 0 .pushOk, Label.call 1 (.forcePush 2)] ++ List.replicate 6 (Label.step 1 false) ++
  [Label.ret 1 (.forcePush (some (some 1)))]

theorem values_end_once_pushThenForce :
    let m := (Runs.exec Monitored.timelyStep (.new .one (Fin 2) ℕ) pushThenForce).get (by decide)
    (∀ i, i ∈ m.queue.dropIndices ↔ i < 1 ∧ (m.queue.buffer i).value.isSome) ∧
    m.queue.dropIndices.Nodup ∧
    (∃ order, Linearizes (fifo 1) (history pushThenForce) order ∧
      m.queue.drop.1 = ((fifo 1).after [] (order.map fun x => (x.op, x.ret))).map some) ∧
    passedIn pushThenForce = handedBack pushThenForce + (m.queue.drop.1 : Contents ℕ) :=
  values_end_once (Option.some_get _).symm (by decide)

end Runs

end NureQueue
