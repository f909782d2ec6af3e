import NureQueue.RingMode

/-! # What the observers see beside force_push

A `force_push` on a full queue moves head and tail in two steps. The observers read only
these two, so between the steps they see one element less than the queue holds. In every
other state of their window they see what the queue holds.
-/

namespace NureQueue

open Linearizability

universe u v

variable {c : Config} {ι : Type v} {α : Type u}

theorem Access.moves_add_le_one (a : Access) : a.moves .head + a.moves .tail ≤ 1 := by
  cases a with
  | casHead won | casTail won => cases won <;> decide
  | storeTail => decide
  | _ => exact Nat.zero_le 1

section Runs

variable [DecidableEq ι] [DecidableEq α] {m₀ m m' : Monitored c ι α}

theorem Monitored.timelyStep_moves_one {l : Label ι α} (hStep : m.timelyStep l = some m') :
    m'.moves .head + m'.moves .tail ≤ m.moves .head + m.moves .tail + 1 := by
  obtain ⟨t, op, rfl, -, rfl⟩ |
    ⟨t, spurious, a, q, p, rfl, -, -, rfl⟩ | ⟨t, x, rfl, -, rfl⟩ := timelyStep_cases hStep
  · exact Nat.le_succ _
  · have hOne := a.moves_add_le_one
    simp only [access]
    omega
  · exact Nat.le_succ _

theorem Monitored.TimelyRun.first_distance {labels : List (Label ι α)}
    (hRun : m₀.TimelyRun labels m) (h : ∃ r, Represents m₀ r) :
    (m.moves .head = m₀.moves .head ∧ m.moves .tail = m₀.moves .tail) ∨
    ∃ before after m', labels = before ++ after ∧ m₀.TimelyRun before m' ∧
      (∃ r, Represents m' r) ∧
      m'.moves .tail + m₀.moves .head ≠ m₀.moves .tail + m'.moves .head := by
  have hStep : ∀ (m : Monitored c ι α) l m', ((∃ r, Represents m r) ∧ m.moves .head = m₀.moves .head ∧
      m.moves .tail = m₀.moves .tail) → m.timelyStep l = some m' →
      ((∃ r, Represents m' r) ∧ m'.moves .head = m₀.moves .head ∧
        m'.moves .tail = m₀.moves .tail) ∨
      ((∃ r, Represents m' r) ∧
        m'.moves .tail + m₀.moves .head ≠ m₀.moves .tail + m'.moves .head) := by
    rintro m l m' ⟨⟨r, hr⟩, hHead, hTail⟩ hMove
    have hNext := hr.timelyStep hMove
    have hOne := timelyStep_moves_one hMove
    have hHeadUp := (timelyStep_moves hMove .head).1
    have hTailUp := (timelyStep_moves hMove .tail).1
    by_cases hStill : m'.moves .head = m₀.moves .head ∧ m'.moves .tail = m₀.moves .tail
    · exact .inl ⟨hNext, hStill⟩
    · exact .inr ⟨hNext, by omega⟩
  obtain ⟨-, hSame⟩ | hMoved := Runs.exec_until hStep hRun ⟨h, rfl, rfl⟩
  · exact .inl hSame
  · exact .inr hMoved

theorem Monitored.TimelyRun.exact_distance {labels : List (Label ι α)}
    (hRun : m₀.TimelyRun labels m) (h : ∃ r, Represents m₀ r) {x : Ret α}
    (hSeen : x.Seen c.N m₀.moves m.moves) :
    ∃ before after m', labels = before ++ after ∧ m₀.TimelyRun before m' ∧
      (∃ r, Represents m' r) ∧ x.Exact c.N (m'.moves .tail - m'.moves .head) := by
  have hN := c.pos
  have hHead := hRun.moves_le .head
  have hTail := hRun.moves_le .tail
  have hLast := hRun.represents h
  obtain ⟨r, hr⟩ := hLast
  have hEnd := hr.bounds
  have hFirst : m₀.TimelyRun [] m₀ := rfl
  cases x with
  | isEmpty b =>
    cases b with
    | true =>
      have hEmpty : m.moves .tail = m₀.moves .head := hSeen.mp rfl
      exact ⟨labels, [], m, by simp, hRun, ⟨r, hr⟩, fun _ => by omega, fun _ => rfl⟩
    | false =>
      have hSome : m.moves .tail ≠ m₀.moves .head := by
        intro hEmpty
        cases hSeen.mpr hEmpty
      by_cases hStart : m₀.moves .tail = m₀.moves .head
      · obtain hSame | ⟨before, after, m', rfl, hBefore, hr', hMoved⟩ := hRun.first_distance h
        · omega
        · exact ⟨before, after, m', rfl, hBefore, hr', nofun, fun hZero => by omega⟩
      · exact ⟨[], labels, m₀, rfl, hFirst, h, nofun, fun hZero => by omega⟩
  | isFull b =>
    cases b with
    | true =>
      have hFull : m.moves .head + c.N = m₀.moves .tail := hSeen.mp rfl
      exact ⟨labels, [], m, by simp, hRun, ⟨r, hr⟩, fun _ => by omega, fun _ => rfl⟩
    | false =>
      have hRoom : m.moves .head + c.N ≠ m₀.moves .tail := by
        intro hFull
        cases hSeen.mpr hFull
      by_cases hStart : m₀.moves .head + c.N = m₀.moves .tail
      · obtain hSame | ⟨before, after, m', rfl, hBefore, hr', hMoved⟩ := hRun.first_distance h
        · omega
        · exact ⟨before, after, m', rfl, hBefore, hr', nofun, fun hAll => by omega⟩
      · exact ⟨[], labels, m₀, rfl, hFirst, h, nofun, fun hAll => by omega⟩
  | len k =>
    have hCount : k + m₀.moves .head = m₀.moves .tail := hSeen
    refine ⟨[], labels, m₀, rfl, hFirst, h, ?_⟩
    change (m₀.moves .tail - m₀.moves .head : ℤ) = k
    omega
  | pushOk | pushErr | forcePush | pop => exact ⟨[], labels, m₀, rfl, hFirst, h, trivial⟩

omit [DecidableEq ι] [DecidableEq α] in
theorem Represents.half_cases {r : Ring ι α} (h : Represents m r) :
    (r.items.length + m.moves .head = m.moves .tail) ∨
    (m.HalfMoved ∧ r.items.length + m.moves .head = m.moves .tail + 1) := by
  have hLength := h.ok.items_length
  have hHead := h.ok.head_le
  rw [h.head, h.tail]
  cases hHalf : r.half with
  | none =>
    rw [hHalf] at hLength
    simp only [Option.isSome_none, Bool.false_eq_true, if_false] at hLength
    exact .inl (by omega)
  | some t =>
    rw [hHalf] at hLength
    simp only [Option.isSome_some, if_true] at hLength
    exact .inr ⟨h.half_iff.mp (by rw [hHalf]; nofun), by omega⟩

/-- In every timely run, also with `force_push`, the result of each observer is at some moment
between its first and its last step that of the elements which an order of the calls up to then
has left, or that of one element less, and then a `force_push` is at this moment between its
two moves. -/
theorem observers_beside_forcePush {before during after : List (Label ι α)} {t : ι} {op : Op α}
    {x : Ret α} (hRun : (Monitored.new c ι α).TimelyRun
      (before ++ .call t op :: (during ++ .ret t x :: after)) m)
    (hObserves : x.observes = true) :
    ∃ first last m' order, during = first ++ last ∧ (∃ spurious, .step t spurious ∈ first) ∧
      (∃ spurious, .step t spurious ∈ last) ∧
      (Monitored.new c ι α).TimelyRun (before ++ .call t op :: first) m' ∧
      Linearizes (fifo c.N) (history (before ++ .call t op :: first)) order ∧
      (x.Exact c.N ((fifo c.N).after [] (order.map fun x => (x.op, x.ret))).length ∨
        m'.HalfMoved ∧
        x.Exact c.N (((fifo c.N).after [] (order.map fun x => (x.op, x.ret))).length - 1)) := by
  obtain ⟨m₁, m₂, m₃, hBefore, hCall, hStart, hDuring, hDone⟩ := hRun.call_to_ret
  have hBegin : (Monitored.new c ι α).TimelyRun (before ++ [.call t op]) m₂ :=
    Runs.exec_snoc_eq_some.mpr ⟨m₁, hBefore, hCall⟩
  have hNew : ∃ r, Represents (Monitored.new c ι α) r := ⟨_, Represents.new c ι α⟩
  have hCalled := hBegin.represents hNew
  obtain ⟨first, window, last, n, n', s, s', rfl, hFirst, hWindow, hSeen⟩ :=
    hDuring.observed hCalled (.inr ⟨op, hStart⟩) hDone hObserves
  obtain ⟨window₁, window₂, m', rfl, hMoment, -, hExact⟩ :=
    hWindow.exact_distance (hFirst.represents hCalled) hSeen
  have hPrefix : (Monitored.new c ι α).TimelyRun
      (before ++ .call t op :: (first ++ .step t s :: window₁)) m' := by
    have hBoth := Runs.exec_append_eq_some.mpr ⟨_, hFirst, hMoment⟩
    have hWhole := Runs.exec_append_eq_some.mpr ⟨_, hBegin, hBoth⟩
    simpa [Monitored.TimelyRun] using hWhole
  obtain ⟨r, order, h, hExplains⟩ := hPrefix.explained
  have hItems : r.items = (fifo c.N).after [] (order.map fun x => (x.op, x.ret)) := hExplains.obj
  refine ⟨first ++ .step t s :: window₁, window₂ ++ .step t s' :: last, m', order, by simp,
    ⟨s, by simp⟩, ⟨s', by simp⟩, hPrefix, hExplains.linearizes, ?_⟩
  rw [← hItems]
  obtain hWhole | ⟨hHalf, hMissing⟩ := h.half_cases
  · refine .inl ?_
    have hDistance : (r.items.length : ℤ) = m'.moves .tail - m'.moves .head := by omega
    rwa [hDistance]
  · refine .inr ⟨hHalf, ?_⟩
    have hDistance : (r.items.length - 1 : ℤ) = m'.moves .tail - m'.moves .head := by omega
    rwa [hDistance]

/-- Thread 0 has moved head for its `force_push`, and not yet tail. -/
def forceBegun : List (Label (Fin 2) ℕ) :=
  [Label.call 0 (.push 1)] ++ List.replicate 5 (Label.step 0 false) ++
  [Label.ret 0 .pushOk, Label.call 0 (.forcePush 2)] ++ List.replicate 3 (Label.step 0 false)

theorem observers_beside_forcePush_forceBegun :
    ∃ first last m' order, List.replicate 2 (Label.step 1 false) = first ++ last ∧
      (∃ spurious, .step 1 spurious ∈ first) ∧ (∃ spurious, .step 1 spurious ∈ last) ∧
      (Monitored.new .one (Fin 2) ℕ).TimelyRun (forceBegun ++ .call 1 .isFull :: first) m' ∧
      Linearizes (fifo 1) (history (forceBegun ++ .call 1 .isFull :: first)) order ∧
      ((Ret.isFull false : Ret ℕ).Exact 1
          ((fifo 1).after [] (order.map fun x => (x.op, x.ret))).length ∨
        m'.HalfMoved ∧ (Ret.isFull false : Ret ℕ).Exact 1
          (((fifo 1).after [] (order.map fun x => (x.op, x.ret))).length - 1)) :=
  observers_beside_forcePush (c := .one) (m := (Runs.exec Monitored.timelyStep
      (.new .one (Fin 2) ℕ) (forceBegun ++ Label.call 1 .isFull ::
        (List.replicate 2 (Label.step 1 false) ++ Label.ret 1 (.isFull false) :: []))).get
          (by decide))
    (Option.some_get _).symm rfl

end Runs

end NureQueue
