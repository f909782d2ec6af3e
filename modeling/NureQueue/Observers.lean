import NureQueue.Fifo
import NureQueue.Plain

/-! # What the observers see

An observer reads head and tail at two moments. The state after its first load and the
state before its last load are the two ends of a window, and its result is a statement
about the number of moves of head and tail at these two ends.
-/

namespace NureQueue

universe u v

variable {c : Config} {ι : Type v} {α : Type u}

/-- Where a step to an observer's second point, or to its result, comes from: p is the point
before the step, and q the memory that it reads. -/
def Pc.From (q : Queue c α) (p : Pc c α) (a : Access) : Pc c α → Prop
  | .emptyTail head => p = .emptyHead ∧ a = .loadHead ∧ head = q.head
  | .fullHead tail => p = .fullTail ∧ a = .loadTail ∧ tail = q.tail
  | .lenCheck tail head => p = .lenHead tail ∧ a = .loadHead ∧ head = q.head
  | .done (.isEmpty b) => ∃ head, p = .emptyTail head ∧ (b = true ↔ q.tail = head)
  | .done (.isFull b) => ∃ tail, p = .fullHead tail ∧ (b = true ↔ q.head + c.oneLap = tail)
  | .done (.len n) => ∃ tail head, p = .lenCheck tail head ∧ q.tail = tail ∧ n = c.lenOf head tail
  | _ => True

theorem Pc.step_observer {p p' : Pc c α} {q q' : Queue c α} {spurious : Bool} {a : Access}
    (hStep : p.step q spurious = some (a, q', p')) : Pc.From q p a p' := by
  cases p with
  | idle | done => cases hStep
  | pushStamp f =>
    cases hStep
    cases f <;> split_ifs <;> trivial
  | pushPublish f =>
    cases hStep
    cases f <;> trivial
  | pushCas | forceCas | popCas =>
    rw [Pc.step] at hStep
    split at hStep <;> cases hStep <;> trivial
  | fullLoad | popStamp | popTail =>
    cases hStep
    split_ifs <;> trivial
  | emptyHead | fullTail | lenHead =>
    cases hStep
    exact ⟨rfl, rfl, rfl⟩
  | emptyTail | fullHead =>
    cases hStep
    exact ⟨_, rfl, decide_eq_true_iff⟩
  | lenCheck tail head =>
    cases hStep
    split_ifs with hSame
    · exact ⟨tail, head, rfl, hSame, rfl⟩
    · trivial
  | _ =>
    cases hStep
    trivial

/-- What a result says about the moves of head and tail at the two ends of its window. -/
def Ret.Seen (N : ℕ) (first last : Word → ℕ) : Ret α → Prop
  | .isEmpty b => b = true ↔ last .tail = first .head
  | .isFull b => b = true ↔ last .head + N = first .tail
  | .len n => n + first .head = first .tail
  | _ => True

section Window

variable [DecidableEq ι] [DecidableEq α] {m₀ m : Monitored c ι α}

namespace Monitored

theorem TimelyRun.call_to_ret {before during after : List (Label ι α)} {t : ι} {op : Op α}
    {x : Ret α} (hRun : m₀.TimelyRun (before ++ .call t op :: (during ++ .ret t x :: after)) m) :
    ∃ m₁ m₂ m₃, m₀.TimelyRun before m₁ ∧ m₁.timelyStep (.call t op) = some m₂ ∧
      m₂.pc t = op.start ∧ m₂.TimelyRun during m₃ ∧ m₃.pc t = .done x := by
  obtain ⟨m₁, hBefore, hRest⟩ := Runs.exec_append_eq_some.mp hRun
  obtain ⟨m₂, hCall, hRest⟩ := Runs.exec_cons_eq_some.mp hRest
  obtain ⟨m₃, hDuring, hRest⟩ := Runs.exec_append_eq_some.mp hRest
  obtain ⟨m₄, hRet, -⟩ := Runs.exec_cons_eq_some.mp hRest
  refine ⟨m₁, m₂, m₃, hBefore, hCall, ?_, hDuring, done_of_ret hRet⟩
  obtain ⟨_, _, hl, -, rfl⟩ | ⟨_, _, _, _, _, hl, -⟩ | ⟨_, _, hl, -⟩ := timelyStep_cases hCall
  · cases hl
    exact Function.update_self ..
  · cases hl
  · cases hl

theorem TimelyRun.observed {labels : List (Label ι α)} (hRun : m₀.TimelyRun labels m)
    (h : ∃ r, Represents m₀ r) {t : ι}
    (hStart : m₀.pc t = .idle ∨ ∃ op : Op α, m₀.pc t = op.start) {x : Ret α}
    (hDone : m.pc t = .done x) (hObserves : x.observes = true) :
    ∃ before window after n n' spurious spurious',
      labels = before ++ .step t spurious :: (window ++ .step t spurious' :: after) ∧
      m₀.TimelyRun (before ++ [.step t spurious]) n ∧ n.TimelyRun window n' ∧
      x.Seen c.N n.moves n'.moves := by
  have hNew : ∀ p, (∀ op : Op α, op.start ≠ p) → .idle ≠ p → m₀.pc t ≠ p := by
    rintro _ hOps hIdle rfl
    obtain hPc | ⟨op, hPc⟩ := hStart
    · exact hIdle hPc.symm
    · exact hOps op hPc.symm
  obtain ⟨first, spurious', after, n', a, q, rfl, hFirst, hTimely, hLast, -, -⟩ :=
    hRun.entered (Op.start_ne_done · x) nofun (hNew _ (Op.start_ne_done · x) nofun) hDone
  obtain ⟨r', h'⟩ := hFirst.represents h
  have hWindow : ∀ p, n'.pc t = p → (∀ op : Op α, op.start ≠ p) → .idle ≠ p →
      ∃ before spurious window n a q, first = before ++ .step t spurious :: window ∧
        m₀.TimelyRun before n ∧ (n.pc t).step n.queue spurious = some (a, q, p) ∧
        n.note t p = n'.seen t ∧ (n.access t a q p).TimelyRun window n' ∧
        m₀.TimelyRun (before ++ [.step t spurious]) (n.access t a q p) := by
    intro p hPc hOps hIdle
    obtain ⟨before, spurious, window, n, a, q, rfl, hBefore, hEarly, hAccess, hNote, hRest⟩ :=
      hFirst.entered hOps hIdle (hNew p hOps hIdle) hPc
    refine ⟨before, spurious, window, n, a, q, rfl, hBefore, hAccess, hNote, hRest, ?_⟩
    refine Runs.exec_snoc_eq_some.mpr ⟨n, hBefore, ?_⟩
    simp only [timelyStep, if_pos hEarly, step, hAccess, Option.map_some]
  have hLocal := h'.locals t
  cases x with
  | isEmpty b =>
    obtain ⟨head, hPc, hVerdict⟩ := Pc.step_observer hLast
    obtain ⟨before, spurious, window, n, a, q, rfl, -, hAccess, hNote, hRest, hBegin⟩ :=
      hWindow _ hPc (fun op => by cases op <;> simp [Op.start]) (by simp)
    obtain ⟨-, rfl, -⟩ := Pc.step_observer hAccess
    refine ⟨before, window, after, _, n', spurious, spurious', by simp, hBegin, hRest, ?_⟩
    have hRecent := h'.timely_head hTimely (by rw [hPc]; rfl)
    rw [hPc] at hLocal
    obtain ⟨rfl, hk⟩ := hLocal
    rw [Ret.Seen, hVerdict, (h'.head_word hk hRecent).2, ← h'.tail, ← hNote]
    exact Iff.rfl
  | isFull b =>
    obtain ⟨tail, hPc, hVerdict⟩ := Pc.step_observer hLast
    obtain ⟨before, spurious, window, n, a, q, rfl, -, hAccess, hNote, hRest, hBegin⟩ :=
      hWindow _ hPc (fun op => by cases op <;> simp [Op.start]) (by simp)
    obtain ⟨-, rfl, -⟩ := Pc.step_observer hAccess
    refine ⟨before, window, after, _, n', spurious, spurious', by simp, hBegin, hRest, ?_⟩
    have hRecent := h'.timely_tail hTimely (by rw [hPc]; rfl)
    rw [hPc] at hLocal
    obtain ⟨rfl, hk⟩ := hLocal
    rw [Ret.Seen, hVerdict, (h'.tail_word hk hRecent).2, ← h'.head, ← hNote]
    exact Iff.rfl
  | len k =>
    obtain ⟨tail, head, hPc, hSame, rfl⟩ := Pc.step_observer hLast
    obtain ⟨before, spurious, window, n, a, q, rfl, hBefore, hAccess, hNote, hRest, hBegin⟩ :=
      hWindow _ hPc (fun op => by cases op <;> simp [Op.start]) (by simp)
    obtain ⟨hFrom, rfl, rfl⟩ := Pc.step_observer hAccess
    refine ⟨before, window, after, _, n', spurious, spurious', by simp, hBegin, hRest, ?_⟩
    have hRecent := h'.timely_tail hTimely (by rw [hPc]; rfl)
    rw [hPc] at hLocal
    obtain ⟨rfl, hk⟩ := hLocal
    have hTail' := (h'.tail_word hk hRecent).1.mp hSame
    obtain ⟨r, h⟩ := hBefore.represents h
    have hOld := h.locals t
    rw [hFrom] at hOld
    have hMono : r.tail ≤ r'.tail := h.tail ▸ h'.tail ▸ hRest.moves_le .tail
    have hSeen : r.tail = n'.seen t := by
      have hNoted : n.seen t = n'.seen t := hNote
      have hLow : n.seen t ≤ r.tail := hOld.2
      omega
    have hHead := h.ok.head_le
    have hTail := h.ok.tail_le
    have hDist := c.lenOf_enc (h := r.head) (d := r.tail - r.head) (by omega)
    rw [Nat.add_sub_cancel' hHead, ← h.mem.head, hSeen] at hDist
    change c.lenOf n.queue.head (c.enc (n'.seen t)) + n.moves .head = n.moves .tail
    rw [hDist, h.head, h.tail]
    omega
  | pushOk | pushErr | forcePush | pop => cases hObserves

end Monitored

theorem Monitored.TimelyRun.plain {labels : List (Label ι α)} (hRun : m₀.TimelyRun labels m)
    (hPlain : ∀ l ∈ labels, l.plain) (h : ∃ r, Plain m₀ r) : ∃ r, Plain m r := by
  refine Runs.exec_invariant_of (P := fun m => ∃ r, Plain m r) ?_ hRun hPlain h
  rintro m l m' ⟨r, hr⟩ hLabel hStep
  obtain ⟨r', hr', -⟩ := hr.timelyStep hLabel hStep
  exact ⟨r', hr'⟩

theorem Monitored.TimelyRun.first_move {labels : List (Label ι α)} (hRun : m₀.TimelyRun labels m)
    (hPlain : ∀ l ∈ labels, l.plain) (h : ∃ r, Plain m₀ r)
    (hMoved : ¬ (m.moves .head = m₀.moves .head ∧ m.moves .tail = m₀.moves .tail)) :
    ∃ before after m', labels = before ++ after ∧ m₀.TimelyRun before m' ∧ (∃ r, Plain m' r) ∧
      (m'.moves .head = m₀.moves .head + 1 ∧ m'.moves .tail = m₀.moves .tail ∨
        m'.moves .head = m₀.moves .head ∧ m'.moves .tail = m₀.moves .tail + 1) := by
  obtain ⟨before, l, after, n, m', rfl, hBefore, ⟨hHead, hTail⟩, hStep, hNew, -⟩ :=
    Runs.exec_first_change (P := fun m : Monitored c ι α =>
      m.moves .head = m₀.moves .head ∧ m.moves .tail = m₀.moves .tail) hRun ⟨rfl, rfl⟩ hMoved
  obtain ⟨r, hr⟩ := TimelyRun.plain hBefore
    (fun l hl => hPlain l (List.mem_append_left _ hl)) h
  obtain ⟨r', hr', hMoves⟩ := hr.timelyStep (hPlain l (by simp)) hStep
  refine ⟨before ++ [l], after, m', by simp, Runs.exec_snoc_eq_some.mpr ⟨n, hBefore, hStep⟩,
    ⟨r', hr'⟩, ?_⟩
  rw [hr'.represents.head, hr'.represents.tail, ← hHead, ← hTail, hr.represents.head,
    hr.represents.tail] at hNew ⊢
  tauto

/-- The number of elements at m, counted in successful exchanges from a state m₀ with no call
in flight on. -/
def Monitored.count (m₀ m : Monitored c ι α) : ℤ :=
  m₀.queue.stored + (m.moves .tail - m₀.moves .tail) - (m.moves .head - m₀.moves .head)

/-- The result is that of a queue with this number of elements. -/
def Ret.Exact (N : ℕ) (count : ℤ) : Ret α → Prop
  | .isEmpty b => b = true ↔ count = 0
  | .isFull b => b = true ↔ count = N
  | .len n => count = n
  | _ => True

omit [DecidableEq ι] [DecidableEq α] in
theorem Represents.bounds {r : Ring ι α} (h : Represents m r) :
    m.moves .head ≤ m.moves .tail ∧ m.moves .tail ≤ m.moves .head + c.N := by
  rw [h.head, h.tail]
  exact ⟨h.ok.head_le, h.ok.tail_le⟩

theorem Monitored.TimelyRun.exact {labels : List (Label ι α)} (hRun : m₀.TimelyRun labels m)
    (hPlain : ∀ l ∈ labels, l.plain) (h : ∃ r, Plain m₀ r) {x : Ret α}
    (hSeen : x.Seen c.N m₀.moves m.moves) :
    ∃ before after m', labels = before ++ after ∧ m₀.TimelyRun before m' ∧
      x.Exact c.N (m'.moves .tail - m'.moves .head) := by
  have hHead := hRun.moves_le .head
  have hTail := hRun.moves_le .tail
  obtain ⟨r, hr⟩ := hRun.plain hPlain h
  have hEnd := hr.represents.bounds
  have hN := c.pos
  have hFirst : m₀.TimelyRun [] m₀ := rfl
  cases x with
  | isEmpty b =>
    cases b with
    | true =>
      have hEmpty : m.moves .tail = m₀.moves .head := hSeen.mp rfl
      exact ⟨labels, [], m, by simp, hRun, fun _ => by omega, fun _ => rfl⟩
    | false =>
      have hSome : m.moves .tail ≠ m₀.moves .head := fun hEmpty => nomatch hSeen.mpr hEmpty
      by_cases hStart : m₀.moves .tail = m₀.moves .head
      · obtain ⟨before, after, m', rfl, hBefore, ⟨r', hr'⟩, hMove⟩ :=
          hRun.first_move hPlain h (by omega)
        have hBounds := hr'.represents.bounds
        exact ⟨before, after, m', rfl, hBefore, nofun, fun hZero => by omega⟩
      · exact ⟨[], labels, m₀, rfl, hFirst, nofun, fun hZero => by omega⟩
  | isFull b =>
    cases b with
    | true =>
      have hFull : m.moves .head + c.N = m₀.moves .tail := hSeen.mp rfl
      exact ⟨labels, [], m, by simp, hRun, fun _ => by omega, fun _ => rfl⟩
    | false =>
      have hRoom : m.moves .head + c.N ≠ m₀.moves .tail := fun hFull => nomatch hSeen.mpr hFull
      by_cases hStart : m₀.moves .head + c.N = m₀.moves .tail
      · obtain ⟨before, after, m', rfl, hBefore, ⟨r', hr'⟩, hMove⟩ :=
          hRun.first_move hPlain h (by omega)
        have hBounds := hr'.represents.bounds
        exact ⟨before, after, m', rfl, hBefore, nofun, fun hAll => by omega⟩
      · exact ⟨[], labels, m₀, rfl, hFirst, nofun, fun hAll => by omega⟩
  | len k =>
    have hCount : k + m₀.moves .head = m₀.moves .tail := hSeen
    refine ⟨[], labels, m₀, rfl, hFirst, ?_⟩
    change (m₀.moves .tail - m₀.moves .head : ℤ) = k
    omega
  | pushOk | pushErr | forcePush | pop => exact ⟨[], labels, m₀, rfl, hFirst, trivial⟩

/-- In a run without `force_push`, the result of each observer is that of the number of
elements at some moment between its first and its last step. -/
theorem observers_exact_at_some_moment (hReach : m₀.Reachable) (hQuiet : ∀ t, m₀.pc t = .idle)
    {labels before during after : List (Label ι α)} (hPlain : ∀ l ∈ labels, l.plain)
    (hRun : m₀.TimelyRun labels m) {t : ι} {op : Op α} {x : Ret α}
    (hLabels : labels = before ++ .call t op :: (during ++ .ret t x :: after))
    (hObserves : x.observes = true) :
    ∃ first last m', during = first ++ last ∧ (∃ spurious, .step t spurious ∈ first) ∧
      (∃ spurious, .step t spurious ∈ last) ∧
      m₀.TimelyRun (before ++ .call t op :: first) m' ∧ x.Exact c.N (m₀.count m') := by
  subst hLabels
  obtain ⟨r₀, h₀⟩ := hReach.represents
  obtain ⟨hPlain₀, hRest₀⟩ := h₀.plain hQuiet
  obtain ⟨m₁, m₂, m₃, hBefore, hCall, hStart, hDuring, hDone⟩ := hRun.call_to_ret
  have hBegin : m₀.TimelyRun (before ++ [.call t op]) m₂ :=
    Runs.exec_snoc_eq_some.mpr ⟨m₁, hBefore, hCall⟩
  have hPlainBegin : ∀ l ∈ before ++ [.call t op], l.plain := by
    intro l hl
    apply hPlain
    rw [List.append_cons]
    exact List.mem_append_left _ hl
  have hPlainDuring : ∀ l ∈ during, l.plain := by
    intro l hl
    exact hPlain l (List.mem_append_right _ (List.mem_cons_of_mem _ (List.mem_append_left _ hl)))
  obtain ⟨r₂, h₂⟩ := hBegin.plain hPlainBegin ⟨r₀, hPlain₀⟩
  obtain ⟨first, window, last, n, n', s, s', rfl, hFirst, hWindow, hSeen⟩ :=
    hDuring.observed ⟨r₂, h₂.represents⟩ (.inr ⟨op, hStart⟩) hDone hObserves
  rw [List.append_cons] at hPlainDuring
  have hPlainN := hFirst.plain (fun l hl => hPlainDuring l (List.mem_append_left _ hl)) ⟨r₂, h₂⟩
  obtain ⟨window₁, window₂, m', rfl, hMoment, hExact⟩ := hWindow.exact
    (fun l hl => hPlainDuring l (List.mem_append_right _ (List.mem_append_left _ hl)))
    hPlainN hSeen
  refine ⟨first ++ .step t s :: window₁, window₂ ++ .step t s' :: last, m', by simp,
    ⟨s, by simp⟩, ⟨s', by simp⟩, ?_, ?_⟩
  · have hPrefix := Runs.exec_append_eq_some.mpr ⟨_, hFirst, hMoment⟩
    have hWhole := Runs.exec_append_eq_some.mpr ⟨_, hBegin, hPrefix⟩
    simpa [Monitored.TimelyRun] using hWhole
  · rw [Monitored.count, hRest₀.stored_eq]
    have hBounds := h₀.bounds
    have hInitial : ((r₀.tail - r₀.head : ℕ) : ℤ) = m₀.moves .tail - m₀.moves .head := by
      rw [← h₀.head, ← h₀.tail]
      omega
    rw [hInitial]
    convert hExact using 1
    ring

def pushBegun : List (Label (Fin 2) ℕ) := [.call 0 (.push 7), .step 0 false]

def lenTwice : List (Label (Fin 2) ℕ) :=
  .step 1 false :: (List.replicate 4 (.step 0 false) ++ List.replicate 5 (.step 1 false))

theorem observers_exact_at_some_moment_lenTwice :
    ∃ first last m', lenTwice = first ++ last ∧ (∃ spurious, .step 1 spurious ∈ first) ∧
      (∃ spurious, .step 1 spurious ∈ last) ∧
      (Monitored.new .one (Fin 2) ℕ).TimelyRun (pushBegun ++ .call 1 .len :: first) m' ∧
      (Ret.len 1 : Ret ℕ).Exact 1 ((Monitored.new .one (Fin 2) ℕ).count m') :=
  observers_exact_at_some_moment (c := .one) (m := (Runs.exec Monitored.timelyStep
      (.new .one (Fin 2) ℕ)
      (pushBegun ++ .call 1 .len :: (lenTwice ++ .ret 1 (.len 1) :: []))).get (by decide))
    ⟨[], rfl⟩ (fun _ => rfl) (by decide) (Option.some_get _).symm rfl rfl

end Window

end NureQueue
