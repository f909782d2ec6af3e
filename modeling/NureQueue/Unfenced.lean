import NureQueue.Lib.SequentialHistory
import NureQueue.Relaxed
import NureQueue.TooLate

/-! # The fences cannot be dropped

The load of head that judges a queue full, and that of tail that judges it empty, come after a
`SeqCst` fence. If one of them could return old values like the loads before it, a call could
judge the queue by what it was before the call began: a push fails although a pop has made
room, or a pop finds nothing although a push has returned.
-/

namespace NureQueue

open Linearizability

universe u v

variable {c : Config} {ι : Type v} {α : Type u}

inductive Fence where
  | push
  | pop
  deriving DecidableEq

/-- As `Pc.mayReadOld`, in a code that lacks one of the fences. -/
def Pc.mayReadOldWithout : Fence → Pc c α → Bool
  | .push, .fullLoad .. => true
  | .pop, .popTail _ => true
  | _, p => p.mayReadOld

/-- The call that can go wrong without the fence, with its wrong result. -/
def Fence.misjudged (value : α) : Fence → Op α × Ret α
  | .push => (.push value, .pushErr value)
  | .pop => (.pop, .pop none)

/-- From the point p on, loads from memory q alone lead the call to the result x. -/
inductive Judged (old : Pc c α → Bool) (q : Queue c α) (x : Ret α) : Pc c α → Prop where
  | done : Judged old q x (.done x)
  | load {p p' : Pc c α} {a : Access} {q' : Queue c α} (hOld : old p = true)
      (hStep : p.step q true = some (a, q', p')) (h : Judged old q x p') : Judged old q x p

theorem judged_full {q : Queue c α} (h : q.PushFull) (value : α) :
    Judged (Pc.mayReadOldWithout .push) q (.pushErr value) (Op.push value).start := by
  have hFirst : (Pc.pushLoad .push value).step q true =
      some (.loadTail, q, .pushStamp .push value q.tail) := rfl
  have hSecond : (Pc.pushStamp .push value q.tail).step q true =
      some (.loadStamp (c.index q.tail), q, .fullLoad value q.tail) := by
    simp [Pc.step, c.stamp_ne h.1, h.1, Closure.enter]
  have hThird : (Pc.fullLoad value q.tail).step q true =
      some (.loadHead, q, .done (.pushErr value)) := by
    simp [Pc.step, h.2]
  exact .load rfl hFirst (.load rfl hSecond (.load rfl hThird .done))

theorem judged_empty {q : Queue c α} (h : q.PopEmpty) :
    Judged (Pc.mayReadOldWithout .pop) q (.pop none) (Op.pop : Op α).start := by
  have hFirst : (Pc.popLoad : Pc c α).step q true = some (.loadHead, q, .popStamp q.head) := rfl
  have hSecond : (Pc.popStamp q.head).step q true =
      some (.loadStamp (c.index q.head), q, .popTail q.head) := by
    simp [Pc.step, h.1, c.w_pos.ne']
  have hThird : (Pc.popTail q.head).step q true = some (.loadTail, q, .done (.pop none)) := by
    simp [Pc.step, h.2]
  exact .load rfl hFirst (.load rfl hSecond (.load rfl hThird .done))

section Calls

variable [DecidableEq ι] [DecidableEq α]

theorem System.exec_pushes {s : System c ι α} {r : Ring ι α} (hRest : AtRest c r s.queue)
    (hEmpty : r.head = r.tail) {t : ι} (hIdle : s.pc t = .idle) (value : α) {n : ℕ}
    (hn : n ≤ c.N) :
    ∃ labels q r', Runs.exec System.step s labels = some ⟨q, s.pc⟩ ∧
      (∀ l ∈ labels, l.thread = t) ∧ labels.countP Label.beginsPush = n ∧
      history labels = sequential (List.replicate n (t, .push value, .pushOk)) ∧
      AtRest (ι := ι) c r' q ∧ r'.head = r.head ∧ r'.tail = r.head + n := by
  induction n with
  | zero => exact ⟨[], s.queue, r, rfl, nofun, rfl, rfl, hRest, rfl, hEmpty.symm⟩
  | succ n ih =>
    obtain ⟨labels, q, r', hExec, hOwn, hCount, hHistory, hRest', hHead', hTail'⟩ :=
      ih (Nat.le_of_succ_le hn)
    have hRoom : r'.tail < r'.head + c.N := by omega
    obtain ⟨pushing, hPush, hPushOwn, hPushCount, hPushHistory⟩ := System.exec_whole_call
      (s := ⟨q, s.pc⟩) hIdle (.push value) (Alone.push_finishes (hRest'.pushFree hRoom) .push)
    refine ⟨labels ++ pushing, _, _, Runs.exec_append_eq_some.mpr ⟨_, hExec, hPush⟩, ?_, ?_, ?_,
      hRest'.pushed t value hRoom, hHead', ?_⟩
    · exact List.forall_mem_append.mpr ⟨hOwn, fun l hl => (hPushOwn l hl).thread_eq⟩
    · rw [List.countP_append, hCount, hPushCount]
      rfl
    · rw [history_append, hHistory, hPushHistory, List.replicate_succ', sequential_append]
      rfl
    · change r'.tail + 1 = _
      omega

end Calls

namespace Relaxed

theorem filterMap_now (labels : List (Label ι α)) :
    (labels.map RelaxedLabel.now).filterMap RelaxedLabel.now? = labels := by
  rw [List.filterMap_map]
  exact List.filterMap_some

theorem filterMap_old (n : ℕ) (u : ι) (i : ℕ) :
    (List.replicate n (RelaxedLabel.old u i : RelaxedLabel ι α)).filterMap RelaxedLabel.now? = [] :=
  List.filterMap_eq_nil_iff.mpr fun l hl => by rw [List.eq_of_mem_replicate hl]; rfl

variable [DecidableEq ι] [DecidableEq α] (old : Pc c α → Bool) {m : Relaxed c ι α}

theorem exists_step {l : Label ι α} {s : System c ι α} (hStep : m.toSystem.step l = some s) :
    ∃ m', m.step old (.now l) = some m' ∧ m'.toSystem = s ∧ m'.past = m.past ++ [m.memory] := by
  obtain ⟨m₁, hNext, hSystem⟩ := Monitored.exists_step hStep
  exact ⟨m.next l m₁, Option.map_eq_some_iff.mpr ⟨m₁, hNext, rfl⟩, hSystem, rfl⟩

theorem exec_now {labels : List (Label ι α)} {s : System c ι α}
    (hRun : Runs.exec System.step m.toSystem labels = some s) :
    ∃ m', Runs.exec (Relaxed.step old) m (labels.map .now) = some m' ∧ m'.toSystem = s ∧
      m.past <+: m'.past := by
  induction labels generalizing m with
  | nil => exact ⟨m, rfl, Option.some.inj hRun, List.prefix_rfl⟩
  | cons l labels ih =>
    obtain ⟨s', hFirst, hRest⟩ := Runs.exec_cons_eq_some.mp hRun
    obtain ⟨m₁, hStep, rfl, hPast⟩ := exists_step old hFirst
    obtain ⟨m', hExec, hSystem, hPrefix⟩ := ih hRest
    refine ⟨m', Runs.exec_cons_eq_some.mpr ⟨m₁, hStep, hExec⟩, hSystem, ?_⟩
    rw [hPast] at hPrefix
    exact (List.prefix_append _ _).trans hPrefix

variable {old}

theorem exec_judged {q : Queue c α} {r : Ret α} {p : Pc c α} (hJudged : Judged old q r p) {u : ι}
    {i : ℕ} {x : Memory c α} (hQueue : x.queue = q) (hPast : m.past[i]? = some x)
    (hPc : m.pc u = p) :
    ∃ n m', Runs.exec (Relaxed.step old) m (List.replicate n (.old u i)) = some m' ∧
      m'.pc u = .done r := by
  induction hJudged generalizing m with
  | done => exact ⟨0, m, rfl, hPc⟩
  | @load p p' a q' hOld hStep h ih =>
    obtain ⟨n, m', hExec, hDone⟩ := ih (m := m.load u x a p') hPast (Function.update_self ..)
    refine ⟨n + 1, m', Runs.exec_cons_eq_some.mpr ⟨_, ?_, hExec⟩, hDone⟩
    rw [← hPc] at hOld hStep
    rw [← hQueue] at hStep
    rw [step, if_pos hOld, hPast, Option.bind_some, hStep]
    rfl

/-- A call of thread u after other labels, all of whose loads are from memory i. -/
def judging (before : List (Label ι α)) (u : ι) (op : Op α) (i n : ℕ) (x : Ret α) :
    List (RelaxedLabel ι α) :=
  before.map .now ++ .now (.call u op) :: (List.replicate n (.old u i) ++ [.now (.ret u x)])

omit [DecidableEq ι] [DecidableEq α] in
theorem filterMap_judging (before : List (Label ι α)) (u : ι) (op : Op α) (i n : ℕ) (x : Ret α) :
    (judging before u op i n x).filterMap RelaxedLabel.now? =
      before ++ [.call u op, .ret u x] := by
  simp only [judging, List.filterMap_append, List.filterMap_cons, List.filterMap_nil,
    filterMap_now, filterMap_old, RelaxedLabel.now?, List.nil_append]

/-- The call may judge the queue by memory that is older than a part of the labels. -/
theorem exec_misjudged {first second : List (Label ι α)} {q₁ q₂ : Queue c α}
    (hFirst : Runs.exec System.step (System.new c ι α) first = some ⟨q₁, (System.new c ι α).pc⟩)
    (hSecond : Runs.exec System.step ⟨q₁, (System.new c ι α).pc⟩ second =
      some ⟨q₂, (System.new c ι α).pc⟩) (hSome : second ≠ []) {op : Op α} {x : Ret α}
    (hJudged : Judged old q₁ x op.start) (u : ι) :
    ∃ i n m, Runs.exec (Relaxed.step old) (Relaxed.new c ι α)
      (judging (first ++ second) u op i n x) = some m := by
  obtain ⟨m₁, hRun₁, hSystem₁, -⟩ := exec_now old (m := Relaxed.new c ι α) hFirst
  obtain ⟨l, rest, rfl⟩ := List.exists_cons_of_ne_nil hSome
  rw [← hSystem₁] at hSecond
  obtain ⟨s, hStep, hRest⟩ := Runs.exec_cons_eq_some.mp hSecond
  obtain ⟨m₂, hStep₂, rfl, hPast₂⟩ := exists_step old hStep
  obtain ⟨m₃, hRun₃, hSystem₃, hPrefix₃⟩ := exec_now old hRest
  have hCall : m₃.toSystem.step (.call u op) =
      some ⟨q₂, Function.update (System.new c ι α).pc u op.start⟩ := by
    have hIdle : (⟨q₂, (System.new c ι α).pc⟩ : System c ι α).pc u = .idle := rfl
    rw [hSystem₃, System.step, if_pos hIdle]
  obtain ⟨m₄, hStep₄, hSystem₄, hPast₄⟩ := exists_step old hCall
  have hPast : m₄.past[m₁.past.length]? = some m₁.memory := by
    rw [hPast₄]
    refine Runs.getElem?_mono (hPrefix₃.trans (List.prefix_append _ _)) ?_
    rw [hPast₂, List.getElem?_concat_length]
  have hQueue : m₁.memory.queue = q₁ := congrArg System.queue hSystem₁
  have hPc : m₄.pc u = op.start := by
    rw [hSystem₄]
    exact Function.update_self ..
  obtain ⟨n, m₅, hRun₅, hDone⟩ := exec_judged hJudged hQueue hPast hPc
  have hRet : m₅.toSystem.step (.ret u x) =
      some ⟨m₅.queue, Function.update m₅.pc u .idle⟩ := by
    rw [System.step, if_pos hDone]
  obtain ⟨m₆, hStep₆, -, -⟩ := exists_step old hRet
  refine ⟨m₁.past.length, n, m₆, ?_⟩
  rw [judging, List.map_append, List.append_assoc]
  refine Runs.exec_append_eq_some.mpr ⟨m₁, hRun₁, Runs.exec_cons_eq_some.mpr ⟨m₂, hStep₂, ?_⟩⟩
  refine Runs.exec_append_eq_some.mpr ⟨m₃, hRun₃, Runs.exec_cons_eq_some.mpr ⟨m₄, hStep₄, ?_⟩⟩
  exact Runs.exec_snoc_eq_some.mpr ⟨m₅, hRun₅, hStep₆⟩

end Relaxed

theorem fifo_after_pushes (N : ℕ) (value : α) {n : ℕ} (hn : n ≤ N) :
    (fifo N).after [] (List.replicate n (.push value, .pushOk)) = List.replicate n value := by
  induction n with
  | zero => rfl
  | succ n ih =>
    have hApply : (fifo N).apply (List.replicate n value) (.push value) =
        (List.replicate n value ++ [value], .pushOk) :=
      fifo_push_of_lt (by rwa [List.length_replicate]) .push
    rw [List.replicate_succ', Object.after_snoc, ih (Nat.le_of_succ_le hn), List.replicate_succ']
    exact congrArg Prod.fst hApply

theorem ret_of_sequential {N : ℕ} {calls : List (ι × Op α × Ret α)} {u : ι} {op : Op α} {x : Ret α}
    (h : Linearizable (fifo N) (sequential (calls ++ [(u, op, x)]))) :
    ((fifo N).apply ((fifo N).after [] (calls.map Prod.snd)) op).2 = x := by
  have hLegal := h.legal_of_sequential
  rw [List.map_append, List.map_singleton, Object.legal_snoc] at hLegal
  exact hLegal.2

section Runs

variable [DecidableEq ι] [DecidableEq α]

/-- Without the fence of push or that of pop, for every capacity and width and any two
threads, there is a run with few pushing calls that is not linearizable: all calls of thread t
have returned when thread u makes its one call, which loads from memory of one earlier moment
only, and so fails to push or to pop. -/
theorem fences_needed (c : Config) (f : Fence) (t u : ι) (value : α) :
    ∃ before s i n labels m, (∀ l ∈ before, l.thread = t) ∧
      Runs.exec System.step (System.new c ι α) before = some s ∧ (∀ v, s.pc v = .idle) ∧
      labels = Relaxed.judging before u (f.misjudged value).1 i n (f.misjudged value).2 ∧
      Runs.exec (Relaxed.step (Pc.mayReadOldWithout f)) (Relaxed.new c ι α) labels = some m ∧
      (labels.filterMap RelaxedLabel.now?).countP Label.beginsPush ≤ c.N + 1 ∧
      ¬ Linearizable (fifo c.N) (history (labels.filterMap RelaxedLabel.now?)) := by
  have hN := c.pos
  have hNew := AtRest.new c ι α
  cases f with
  | push =>
    obtain ⟨pushes, q, r, hPushes, hPushesOwn, hCount, hPushesHistory, hRest, hHead, hTail⟩ :=
      System.exec_pushes (s := System.new c ι α) (t := t) hNew rfl rfl value (Nat.le_refl c.N)
    have hFull : r.tail = r.head + c.N := by rw [hTail, hHead]
    obtain ⟨popping, hPop, hPopOwn, hPopCount, hPopHistory⟩ := System.exec_whole_call
      (s := ⟨q, (System.new c ι α).pc⟩) (t := t) rfl .pop
      (Alone.pop_finishes (hRest.popReady (by omega)))
    have hSome : popping ≠ [] := by
      rintro rfl
      cases hPopHistory
    obtain ⟨i, n, m, hRun⟩ := Relaxed.exec_misjudged hPushes hPop hSome
      (judged_full (hRest.pushFull hFull) value) u
    refine ⟨pushes ++ popping, _, i, n, _, m,
      List.forall_mem_append.mpr ⟨hPushesOwn, fun l hl => (hPopOwn l hl).thread_eq⟩,
      Runs.exec_append_eq_some.mpr ⟨_, hPushes, hPop⟩, fun _ => rfl, rfl, hRun, ?_, ?_⟩
    · rw [Relaxed.filterMap_judging, List.countP_append, List.countP_append, hCount, hPopCount]
      exact Nat.le_refl _
    · intro hLin
      rw [Relaxed.filterMap_judging, history_append, history_append, hPushesHistory, hPopHistory]
        at hLin
      have hCalls : Linearizable (fifo c.N) (sequential
          (List.replicate c.N (t, .push value, .pushOk) ++
            [(t, .pop, .pop (some (q.buffer (c.index q.head)).value))] ++
            [(u, .push value, .pushErr value)])) := by
        rwa [sequential_append, sequential_append]
      have hRet := ret_of_sequential hCalls
      rw [List.map_append, List.map_replicate, List.map_singleton, Object.after_snoc,
        fifo_after_pushes c.N value (Nat.le_refl _)] at hRet
      have hRoom : (List.replicate c.N value).tail.length < c.N := by
        rw [List.length_tail, List.length_replicate]
        omega
      cases (congrArg Prod.snd (fifo_push_of_lt hRoom .push)).symm.trans hRet
  | pop =>
    obtain ⟨pushes, q, r, hPushes, hPushesOwn, hCount, hPushesHistory, -, -, -⟩ :=
      System.exec_pushes (s := System.new c ι α) (t := t) hNew rfl rfl value hN
    have hSome : pushes ≠ [] := by
      rintro rfl
      cases hPushesHistory
    have hNone : Runs.exec System.step (System.new c ι α) [] =
        some ⟨Queue.new c α, (System.new c ι α).pc⟩ := rfl
    obtain ⟨i, n, m, hRun⟩ := Relaxed.exec_misjudged hNone hPushes hSome
      (judged_empty (hNew.popEmpty rfl)) u
    refine ⟨pushes, _, i, n, _, m, hPushesOwn, hPushes, fun _ => rfl, rfl, hRun, ?_, ?_⟩
    · rw [Relaxed.filterMap_judging, List.countP_append, hCount]
      change 1 + 0 ≤ _
      omega
    · intro hLin
      rw [Relaxed.filterMap_judging, history_append, hPushesHistory] at hLin
      have hCalls : Linearizable (fifo c.N) (sequential
          (List.replicate 1 (t, .push value, .pushOk) ++ [(u, .pop, .pop none)])) := by
        rwa [sequential_append]
      have hRet := ret_of_sequential hCalls
      rw [List.map_replicate, fifo_after_pushes c.N value hN] at hRet
      cases hRet

end Runs

end NureQueue
