import NureQueue.ClientView
import NureQueue.Overlap
import NureQueue.Period
import NureQueue.Stale

/-! # The timing assumption cannot be dropped

For every capacity and width there is a run of pushes and pops by two threads in which a pop
is suspended before its exchange until head has moved K times. The head word has come back,
the exchange succeeds on an empty queue, and the pop reads a slot that holds no live value.
The run has K pushing calls; with fewer than a quarter of 2^w no run goes wrong.
-/

namespace NureQueue

open Linearizability

universe u v

variable {c : Config} {ι : Type v} {α : Type u}

/-- The label is one of a call of op by thread t. -/
def Label.ofCall (t : ι) (op : Op α) : Label ι α → Prop
  | .call u op' => u = t ∧ op' = op
  | .step u _ | .ret u _ => u = t

theorem Label.ofCall.thread_eq {t : ι} {op : Op α} {l : Label ι α} (h : l.ofCall t op) :
    l.thread = t := by
  cases l with
  | call => exact h.1
  | step | ret => exact h

theorem Label.thread_ne_of_ofCall {t u : ι} (hne : t ≠ u) (value : α) {labels : List (Label ι α)}
    (h : ∀ l ∈ labels, l.ofCall u (.push value) ∨ l.ofCall u .pop) :
    ∀ l ∈ labels, l.thread ≠ t := by
  intro l hl
  rw [(h l hl).elim Label.ofCall.thread_eq Label.ofCall.thread_eq]
  exact hne.symm

theorem filter_thread_of_ne [DecidableEq ι] {t : ι} {labels : List (Label ι α)}
    (h : ∀ l ∈ labels, l.thread ≠ t) : labels.filter (fun l => l.thread = t) = [] := by
  simpa [List.filter_eq_nil_iff] using h

theorem history_append (first second : List (Label ι α)) :
    history (first ++ second) = history first ++ history second :=
  List.filterMap_append

theorem history_thread {labels : List (Label ι α)} {t : ι} (h : ∀ l ∈ labels, l.thread ≠ t) :
    ∀ e ∈ history labels, e.thread ≠ t := by
  intro e he
  obtain ⟨l, hl, hEvent⟩ := List.mem_filterMap.mp he
  have hThread := h l hl
  cases l with
  | step => cases hEvent
  | call | ret =>
    rw [Label.event?] at hEvent
    split at hEvent <;> cases hEvent
    exact hThread

theorem countP_replicate_step (k : ℕ) (t : ι) (spurious : Bool) :
    (List.replicate k (.step t spurious) : List (Label ι α)).countP Label.beginsPush = 0 := by
  refine List.countP_eq_zero.mpr ?_
  intro l hl
  rw [List.eq_of_mem_replicate hl]
  exact Bool.false_ne_true

theorem fifo_pop_live (N : ℕ) (xs : List α) (op : Op α) :
    ((fifo N).apply xs op).2 ≠ .pop (some none) := by
  cases op with
  | push value =>
    obtain hApply | hApply := fifo_push_cases N xs value <;> rw [hApply] <;> nofun
  | forcePush value =>
    obtain hApply | hApply := fifo_forcePush_cases N xs value <;> rw [hApply] <;> nofun
  | pop => cases xs <;> nofun
  | isEmpty | isFull | len => nofun

theorem not_linearizable_of_dead {N : ℕ} {h : History ι (Op α) (Ret α)} {i j : ℕ}
    (hReturned : Returned h i j (.pop (some none))) : ¬ Linearizable (fifo N) h := by
  rintro ⟨order, hl⟩
  obtain ⟨op, hEntry⟩ := hl.returned i j _ hReturned
  obtain ⟨before, after, hOrder⟩ := List.append_of_mem hEntry
  exact fifo_pop_live N _ op (hl.ret_eq hOrder)

section Runs

variable [DecidableEq ι] [DecidableEq α]

theorem System.exec_whole_call {s : System c ι α} {t : ι} (hIdle : s.pc t = .idle) (op : Op α)
    {q : Queue c α} {x : Ret α} (h : Alone.Finishes [] ⟨s.queue, op.start, 0, 0⟩ q x) :
    ∃ labels, Runs.exec System.step s labels = some ⟨q, s.pc⟩ ∧
      (∀ l ∈ labels, l.ofCall t op) ∧ labels.countP Label.beginsPush = op.pushes.toNat ∧
      history labels = history [.call t op, .ret t x] := by
  obtain ⟨k, hExec⟩ := System.exec_call hIdle h
  refine ⟨_, hExec, ?_, ?_, ?_⟩
  · intro l hl
    simp only [List.mem_cons, List.mem_append, List.mem_replicate, List.not_mem_nil,
      or_false] at hl
    obtain rfl | ⟨-, rfl⟩ | rfl := hl
    · exact ⟨rfl, rfl⟩
    · exact rfl
    · exact rfl
  · rw [List.countP_cons, List.countP_append, countP_replicate_step]
    cases hPushes : op.pushes <;> simp [Label.beginsPush, hPushes]
  · have hSteps : history (List.replicate k (.step t false) : List (Label ι α)) = [] := by
      refine List.filterMap_eq_nil_iff.mpr ?_
      intro l hl
      rw [List.eq_of_mem_replicate hl]
      rfl
    rw [← List.singleton_append, history_append, history_append, hSteps, List.nil_append,
      ← history_append]
    rfl

theorem System.exec_popBegun {s : System c ι α} {t : ι} (hIdle : s.pc t = .idle)
    (hReady : s.queue.PopReady) :
    Runs.exec System.step s [.call t .pop, .step t false, .step t false] =
      some ⟨s.queue, Function.update s.pc t (.popCas s.queue.head)⟩ := by
  have hStamp : s.queue.head + 1 = (s.queue.buffer (c.index s.queue.head)).stamp := hReady.symm
  simp only [Runs.exec, System.step, hIdle, Op.start, Pc.step, List.foldlM_cons, List.foldlM_nil,
    Function.update_self, Function.update_idem, Option.map_some, Option.bind_eq_bind,
    Option.bind_some, if_true, if_pos hStamp]
  rfl

/-- The rest of a pop whose exchange succeeds, whatever its slot holds. -/
theorem System.exec_popEnd {s : System c ι α} {t : ι} {head : c.Index}
    (hPc : s.pc t = .popCas head) (hHead : s.queue.head = head) :
    Runs.exec System.step s [.step t false, .step t false, .step t false,
      .ret t (.pop (some (s.queue.buffer (c.index head)).value))] =
        some ⟨s.queue.popped, Function.update s.pc t .idle⟩ := by
  subst hHead
  have hWon : s.step (.step t false) = some ⟨{ s.queue with head := c.next s.queue.head },
      Function.update s.pc t (.popRead s.queue.head)⟩ := by
    rw [System.step, hPc]
    exact congrArg (Option.map _) (if_pos ⟨rfl, rfl⟩)
  refine Runs.exec_cons_eq_some.mpr ⟨_, hWon, ?_⟩
  simp only [Runs.exec, System.step, Pc.step, List.foldlM_cons, List.foldlM_nil,
    Function.update_self, Function.update_idem, Option.map_some, Option.bind_eq_bind,
    Option.bind_some, if_true]
  rfl

/-- A push and a pop, n times over, on an empty queue. -/
theorem System.exec_rounds {s : System c ι α} {r : Ring ι α} (hRest : AtRest c r s.queue)
    (hEmpty : r.head = r.tail) {t : ι} (hIdle : s.pc t = .idle) (value : α) (n : ℕ) :
    ∃ labels q r', Runs.exec System.step s labels = some ⟨q, s.pc⟩ ∧
      (∀ l ∈ labels, l.ofCall t (.push value) ∨ l.ofCall t .pop) ∧
      labels.countP Label.beginsPush = n ∧ AtRest (ι := ι) c r' q ∧ r'.head = r.head + n ∧
      r'.tail = r.head + n := by
  induction n with
  | zero => exact ⟨[], s.queue, r, rfl, nofun, rfl, hRest, rfl, hEmpty.symm⟩
  | succ n ih =>
    obtain ⟨labels, q, r₁, hExec, hOwn, hCount, hRest₁, hHead₁, hTail₁⟩ := ih
    have hN := c.pos
    have hRoom : r₁.tail < r₁.head + c.N := by omega
    have hPushed := hRest₁.pushed t value hRoom
    obtain ⟨pushing, hPush, hPushOwn, hPushCount, -⟩ := System.exec_whole_call (s := ⟨q, s.pc⟩)
      hIdle (.push value) (Alone.push_finishes (hRest₁.pushFree hRoom) .push)
    obtain ⟨popping, hPop, hPopOwn, hPopCount, -⟩ := System.exec_whole_call
      (s := ⟨q.pushed value, s.pc⟩) hIdle .pop
      (Alone.pop_finishes (hPushed.popReady (show r₁.head < r₁.tail + 1 by omega)))
    refine ⟨labels ++ (pushing ++ popping), (q.pushed value).popped, _,
      Runs.exec_append_eq_some.mpr ⟨_, hExec, Runs.exec_append_eq_some.mpr ⟨_, hPush, hPop⟩⟩,
      ?_, ?_, hPushed.popped t (show r₁.head < r₁.tail + 1 by omega), ?_, ?_⟩
    · intro l hl
      rw [List.mem_append, List.mem_append] at hl
      obtain hOld | hNew | hNew := hl
      · exact hOwn l hOld
      · exact .inl (hPushOwn l hNew)
      · exact .inr (hPopOwn l hNew)
    · rw [List.countP_append, List.countP_append, hCount, hPushCount, hPopCount]
      rfl
    · change r₁.head + 1 = _
      omega
    · change r₁.tail + 1 = _
      omega

/-- For every capacity and width, and any two threads, there is a run with K pushing calls in
which the one call of thread t, a pop, returns a value from a slot that holds none, while
thread u does no more than push and pop. -/
theorem late_pop_reads_dead_slot (c : Config) {t u : ι} (hne : t ≠ u) (value : α) :
    ∃ labels s, Runs.exec System.step (System.new c ι α) labels = some s ∧
      labels.countP Label.beginsPush = c.K ∧
      labels.filter (fun l => l.thread = t) =
        .call t .pop :: (List.replicate 5 (.step t false) ++ [.ret t (.pop (some none))]) ∧
      (∀ l ∈ labels, l.thread ≠ t → l.ofCall u (.push value) ∨ l.ofCall u .pop) ∧
      ¬ Linearizable (fifo c.N) (history labels) := by
  have hN := c.pos
  have hK := c.K_pos
  have hNew := AtRest.new c ι α
  have hRoom : (Ring.start ι α).tail < (Ring.start ι α).head + c.N := by
    change 0 < 0 + c.N
    omega
  -- Thread u pushes, thread t begins its pop, and thread u takes the value first.
  obtain ⟨pushing, hPush, hPushOwn, hPushCount, -⟩ := System.exec_whole_call
    (s := System.new c ι α) (t := u) rfl (.push value)
    (Alone.push_finishes (hNew.pushFree hRoom) .push)
  have hPushed := hNew.pushed u value hRoom
  generalize (Queue.new c α).pushed value = q₁ at hPush hPushed
  have hReady := hPushed.popReady Nat.one_pos
  have hBegin := System.exec_popBegun (s := ⟨q₁, (System.new c ι α).pc⟩) (t := t) rfl hReady
  have hHead₁ : q₁.head = c.enc 0 := hPushed.mem.head
  rw [hHead₁] at hBegin
  have hIdle : Function.update (System.new c ι α).pc t (.popCas (c.enc 0)) u = .idle :=
    Function.update_of_ne hne.symm ..
  obtain ⟨popping, hPop, hPopOwn, hPopCount, -⟩ := System.exec_whole_call
    (s := ⟨q₁, Function.update (System.new c ι α).pc t (.popCas (c.enc 0))⟩) hIdle .pop
    (Alone.pop_finishes hReady)
  -- After K - 1 more rounds of thread u the head word is the one that thread t has loaded.
  obtain ⟨rounds, q₂, r₂, hRounds, hRoundsOwn, hCount, hRest₂, hHead₂, hTail₂⟩ :=
    System.exec_rounds
      (s := ⟨q₁.popped, Function.update (System.new c ι α).pc t (.popCas (c.enc 0))⟩)
      (hPushed.popped u Nat.one_pos) rfl hIdle value (c.K - 1)
  replace hHead₂ : r₂.head = c.K := hHead₂.trans (Nat.add_sub_cancel' hK)
  replace hTail₂ : r₂.tail = c.K := hTail₂.trans (Nat.add_sub_cancel' hK)
  have hBack : c.enc c.K = c.enc 0 := (c.enc_eq_iff c.K 0).mpr (by rw [Nat.mod_self, Nat.zero_mod])
  have hDead : (q₂.buffer (c.index (c.enc 0))).value = none := by
    rw [← hBack, c.index_enc]
    exact hRest₂.free_value hTail₂.le (by omega)
  have hEnd := System.exec_popEnd
    (s := ⟨q₂, Function.update (System.new c ι α).pc t (.popCas (c.enc 0))⟩) (t := t)
    (Function.update_self ..) (hRest₂.mem.head.trans (by rw [hHead₂, hBack]))
  rw [hDead] at hEnd
  have hRun := Runs.exec_append_eq_some.mpr ⟨_, hPush, Runs.exec_append_eq_some.mpr ⟨_, hBegin,
    Runs.exec_append_eq_some.mpr ⟨_, hPop, Runs.exec_append_eq_some.mpr ⟨_, hRounds, hEnd⟩⟩⟩⟩
  have hPushOther : ∀ l ∈ pushing, l.thread ≠ t :=
    Label.thread_ne_of_ofCall hne value fun l hl => .inl (hPushOwn l hl)
  have hPopOther : ∀ l ∈ popping, l.thread ≠ t :=
    Label.thread_ne_of_ofCall hne value fun l hl => .inr (hPopOwn l hl)
  have hRoundsOther : ∀ l ∈ rounds, l.thread ≠ t :=
    Label.thread_ne_of_ofCall hne value hRoundsOwn
  refine ⟨_, _, hRun, ?_, ?_, ?_, ?_⟩
  · rw [List.countP_append, List.countP_append, List.countP_append, List.countP_append,
      hPushCount, hPopCount, hCount]
    change 1 + (0 + (0 + (c.K - 1 + 0))) = c.K
    omega
  · simp only [List.filter_append, filter_thread_of_ne hPushOther, filter_thread_of_ne hPopOther,
      filter_thread_of_ne hRoundsOther, List.nil_append]
    simp [Label.thread, List.replicate]
  · intro l hl hOther
    simp only [List.mem_append, List.mem_cons, List.not_mem_nil, or_false] at hl
    obtain hl | (rfl | rfl | rfl) | hl | hl | rfl | rfl | rfl | rfl := hl
    · exact .inl (hPushOwn l hl)
    · exact absurd rfl hOther
    · exact absurd rfl hOther
    · exact absurd rfl hOther
    · exact .inr (hPopOwn l hl)
    · exact hRoundsOwn l hl
    all_goals exact absurd rfl hOther
  · have hOpen : Open (history pushing ++ [.call t .pop] ++ (history popping ++ history rounds)) t
        (history pushing).length (.pop : Op α) := by
      refine Open.append (open_call ..) ?_
      exact List.forall_mem_append.mpr ⟨history_thread hPopOther, history_thread hRoundsOther⟩
    have hReturned := hOpen.returned (.pop (some none))
    have hHistory : history (pushing ++ ([.call t .pop, .step t false, .step t false] ++ (popping ++
        (rounds ++ [.step t false, .step t false, .step t false, .ret t (.pop (some none))])))) =
        history pushing ++ [.call t .pop] ++ (history popping ++ history rounds) ++
          [.ret t (.pop (some none))] := by
      simp only [history_append, List.append_assoc]
      rfl
    rw [hHistory]
    exact not_linearizable_of_dead hReturned

theorem late_pop_reads_dead_slot_one :
    ∃ labels s, Runs.exec System.step (System.new .one (Fin 2) ℕ) labels = some s ∧
      labels.countP Label.beginsPush = Config.one.K ∧
      labels.filter (fun l => l.thread = 1) =
        .call 1 .pop :: (List.replicate 5 (.step 1 false) ++ [.ret 1 (.pop (some none))]) ∧
      (∀ l ∈ labels, l.thread ≠ 1 → l.ofCall 0 (.push 7) ∨ l.ofCall 0 .pop) ∧
      ¬ Linearizable (fifo 1) (history labels) :=
  late_pop_reads_dead_slot .one (by decide : (1 : Fin 2) ≠ 0) 7

end Runs

end NureQueue
