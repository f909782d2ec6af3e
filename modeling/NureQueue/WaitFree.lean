import NureQueue.TooLate
import NureQueue.Work

/-! # Which operations are wait-free

`is_empty` and `is_full` make two accesses. Another thread can send each of the other loops
round as often as it likes with whole calls of its own, though the call meets no owned slot
and none of its exchanges fails spuriously.
-/

namespace NureQueue

universe u v

variable {c : Config} {ι : Type v} {α : Type u}

/-- The last call of thread t is of op; it has made k accesses, none of which failed
spuriously, and has not returned. -/
def InCall [DecidableEq ι] (t : ι) (op : Op α) (k : ℕ) (labels : List (Label ι α)) : Prop :=
  ∃ before, labels.filter (fun l => l.thread = t) =
    before ++ .call t op :: List.replicate k (.step t false)

theorem InCall.of_snoc [DecidableEq ι] {t : ι} {op : Op α} {k : ℕ} {labels : List (Label ι α)}
    {l : Label ι α} (h : InCall t op k (labels ++ [l])) :
    l.thread ≠ t ∧ InCall t op k labels ∨ k = 0 ∧ l = .call t op ∨
      ∃ n, k = n + 1 ∧ l = .step t false ∧ InCall t op n labels := by
  obtain ⟨before, h⟩ := h
  rw [List.filter_append] at h
  by_cases hThread : l.thread = t
  · right
    have hKept : [l].filter (fun l => l.thread = t) = [l] := by simp [hThread]
    rw [hKept] at h
    cases k with
    | zero =>
      obtain ⟨-, hLast⟩ := List.append_inj' h rfl
      exact .inl ⟨rfl, List.singleton_inj.mp hLast⟩
    | succ n =>
      rw [List.replicate_succ', ← List.cons_append, ← List.append_assoc] at h
      obtain ⟨hFirst, hLast⟩ := List.append_inj' h rfl
      exact .inr ⟨n, rfl, List.singleton_inj.mp hLast, before, hFirst⟩
  · have hDropped : [l].filter (fun l => l.thread = t) = [] := by simp [hThread]
    rw [hDropped, List.append_nil] at h
    exact .inl ⟨hThread, before, h⟩

def Pc.loopless : Pc c α → Prop
  | .emptyHead | .emptyTail _ | .fullTail | .fullHead _ | .done _ => True
  | _ => False

theorem Pc.Edge.loopless {p p' : Pc c α} {a : Access} (h : p.Edge a p') (hPoint : p.loopless) :
    p'.loopless ∧ 1 + p'.rank ≤ p.rank := by
  cases h with
  | emptyHead | emptyTail | fullTail | fullHead => exact ⟨trivial, Nat.le_of_ble_eq_true rfl⟩
  | _ => cases hPoint

section Runs

variable [DecidableEq ι] [DecidableEq α]

theorem System.loopless_accesses {op : Op α} (hOp : op = .isEmpty ∨ op = .isFull) {t : ι}
    {labels : List (Label ι α)} {s : System c ι α}
    (hRun : Runs.exec System.step (System.new c ι α) labels = some s) {k : ℕ}
    (hCall : InCall t op k labels) : (s.pc t).loopless ∧ k + (s.pc t).rank ≤ 2 := by
  refine Runs.exec_induction (P := fun labels s => ∀ k, InCall t op k labels →
    (s.pc t).loopless ∧ k + (s.pc t).rank ≤ 2) ?_ ?_ labels s hRun k hCall
  · rintro k ⟨before, hNone⟩
    simp at hNone
  rintro labels s l s' - ih hStep k hCall
  obtain ⟨hOther, hBefore⟩ | ⟨rfl, rfl⟩ | ⟨n, rfl, rfl, hBefore⟩ := hCall.of_snoc
  · obtain ⟨-, hSame⟩ | ⟨op, rfl, -⟩ | ⟨x, rfl, -⟩ | ⟨spurious, a, q, rfl, -⟩ :=
      System.step_thread hStep t
    · rw [hSame]
      exact ih k hBefore
    all_goals exact absurd rfl hOther
  · obtain ⟨hOther, -⟩ | ⟨op', hSame, -, hAfter⟩ | ⟨x, hRet, -⟩ | ⟨spurious, a, q, hAccess, -⟩ :=
      System.step_thread hStep t
    · exact absurd rfl hOther
    · cases hSame
      rw [hAfter]
      obtain rfl | rfl := hOp <;> exact ⟨trivial, Nat.le_refl 2⟩
    · cases hRet
    · cases hAccess
  · obtain ⟨hOther, -⟩ | ⟨op', hCall, -⟩ | ⟨x, hRet, -⟩ | ⟨spurious, a, q, -, hAccess⟩ :=
      System.step_thread hStep t
    · exact absurd rfl hOther
    · cases hCall
    · cases hRet
    · obtain ⟨hPoint, hRank⟩ := ih n hBefore
      obtain ⟨hPoint', hLess⟩ := (Pc.edge hAccess).loopless hPoint
      exact ⟨hPoint', by omega⟩

/-- Where a call stands before a round: it has loaded the present word of the index that it
needs, and a push and a pop of another thread will move both indices. -/
def Starving (op : Op α) (r : Ring ι α) (q : Queue c α) : Pc c α → Prop
  | .pushCas f value tail => op = f.op value ∧ tail = q.tail ∧ r.tail = r.head
  | .popCas head => op = .pop ∧ head = q.head ∧ r.tail = r.head + 1
  | .lenCheck tail _ => op = .len ∧ tail = q.tail ∧ r.tail = r.head
  | _ => False

omit [DecidableEq ι] [DecidableEq α] in
theorem Config.enc_moved (c : Config) (k : ℕ) : c.enc (k + 1) ≠ c.enc k := by
  intro hSame
  have hN := c.pos
  have hK := c.four_mul_N_le_K
  have hEq := c.eq_of_enc_eq hSame (by omega) (by omega)
  omega

theorem System.exec_still {q : Queue c α} {pc : ι → Pc c α} {t : ι} {p p' : Pc c α} {a : Access}
    (hStep : p.step q false = some (a, q, p')) {k : ℕ} {s : System c ι α}
    (hRest : Runs.exec System.step ⟨q, Function.update pc t p'⟩
      (List.replicate k (.step t false)) = some s) :
    Runs.exec System.step ⟨q, Function.update pc t p⟩
      (List.replicate (k + 1) (.step t false)) = some s := by
  refine Runs.exec_cons_eq_some.mpr ⟨_, ?_, hRest⟩
  simp only [System.step, Function.update_self, hStep, Option.map_some, Function.update_idem]

theorem System.rounds_pos {s : System c ι α} {t : ι} {p p' : Pc c α} {a : Access} {q : Queue c α}
    (hPc : s.pc t = p) (hStep : p.step s.queue false = some (a, q, p')) (hAgain : p.again p' = true)
    (k : ℕ) : 0 < Runs.total System.step (rounds fun v => v = t) s
      (List.replicate (k + 1) (.step t false)) := by
  subst hPc
  refine Nat.add_pos_left ?_ _
  rw [rounds, steps_eq hStep, hAgain]
  simp

theorem AtRest.exec_cycle {r : Ring ι α} {q : Queue c α} (hRest : AtRest c r q)
    (hShort : r.tail = r.head ∨ r.tail = r.head + 1) {pc : ι → Pc c α} {u : ι}
    (hIdle : pc u = .idle) (value : α) :
    ∃ labels q' r', Runs.exec System.step ⟨q, pc⟩ labels = some ⟨q', pc⟩ ∧
      (∀ l ∈ labels, l.ofCall u (.push value) ∨ l.ofCall u .pop) ∧ AtRest (ι := ι) c r' q' ∧
      r'.head = r.head + 1 ∧ r'.tail = r.tail + 1 := by
  obtain hEmpty | hOne := hShort
  · obtain ⟨labels, q', r', hExec, hOwn, -, hRest', hHead, hTail⟩ :=
      System.exec_rounds (s := ⟨q, pc⟩) hRest hEmpty.symm hIdle value 1
    exact ⟨labels, q', r', hExec, hOwn, hRest', hHead, by omega⟩
  · have hSome : r.head < r.tail := by omega
    have hPopped := hRest.popped u hSome
    have hRoom : r.tail < r.head + 1 + c.N := by
      have hN := c.pos
      omega
    obtain ⟨popping, hPop, hPopOwn, -⟩ := System.exec_whole_call (s := ⟨q, pc⟩) hIdle .pop
      (Alone.pop_finishes (hRest.popReady hSome))
    obtain ⟨pushing, hPush, hPushOwn, -⟩ := System.exec_whole_call (s := ⟨q.popped, pc⟩) hIdle
      (.push value) (Alone.push_finishes (hPopped.pushFree hRoom) .push)
    refine ⟨popping ++ pushing, _, _, Runs.exec_append_eq_some.mpr ⟨_, hPop, hPush⟩, ?_,
      hPopped.pushed u value hRoom, rfl, rfl⟩
    intro l hl
    obtain hFirst | hSecond := List.mem_append.mp hl
    · exact .inr (hPopOwn l hFirst)
    · exact .inl (hPushOwn l hSecond)

/-- One round: the words are stale, and the call loads them anew. -/
theorem Starving.round {op : Op α} {r r' : Ring ι α} {q q' : Queue c α} {p : Pc c α}
    (h : Starving op r q p) (hRest : AtRest c r q) (hRest' : AtRest c r' q')
    (hHead : r'.head = r.head + 1) (hTail : r'.tail = r.tail + 1) (pc : ι → Pc c α) (t : ι) :
    ∃ k p', 0 < k ∧ Runs.exec System.step ⟨q', Function.update pc t p⟩
      (List.replicate k (.step t false)) = some ⟨q', Function.update pc t p'⟩ ∧
      0 < Runs.total System.step (System.rounds fun v => v = t) ⟨q', Function.update pc t p⟩
        (List.replicate k (.step t false)) ∧
      Starving op r' q' p' := by
  have hPc : Function.update pc t p t = p := Function.update_self ..
  have hHeads : q'.head ≠ q.head := by
    rw [hRest.mem.head, hRest'.mem.head, hHead]
    exact c.enc_moved r.head
  have hTails : q'.tail ≠ q.tail := by
    rw [hRest.mem.tail, hRest'.mem.tail, hTail]
    exact c.enc_moved r.tail
  have hN := c.pos
  cases p with
  | pushCas f value tail =>
    obtain ⟨rfl, rfl, hEmpty⟩ := h
    have hFree : q'.tail = (q'.buffer (c.index q'.tail)).stamp :=
      (hRest'.pushFree (by omega)).symm
    have hLost : (Pc.pushCas f value q.tail).step q' false =
        some (.casTail false, q', .pushStamp f value q'.tail) := if_neg fun hWon => hTails hWon.1
    have hLoad : (Pc.pushStamp f value q'.tail).step q' false =
        some (.loadStamp (c.index q'.tail), q', .pushCas f value q'.tail) := by
      rw [Pc.step, if_pos hFree]
    exact ⟨2, _, Nat.succ_pos 1, System.exec_still hLost (System.exec_still hLoad rfl),
      System.rounds_pos hPc hLost rfl 1, rfl, rfl, by omega⟩
  | popCas head =>
    obtain ⟨rfl, rfl, hOne⟩ := h
    have hStored : q'.head + 1 = (q'.buffer (c.index q'.head)).stamp :=
      (hRest'.popReady (by omega)).symm
    have hLost : (Pc.popCas q.head : Pc c α).step q' false =
        some (.casHead false, q', .popStamp q'.head) := if_neg fun hWon => hHeads hWon.1
    have hLoad : (Pc.popStamp q'.head : Pc c α).step q' false =
        some (.loadStamp (c.index q'.head), q', .popCas q'.head) := by
      rw [Pc.step, if_pos hStored]
    exact ⟨2, _, Nat.succ_pos 1, System.exec_still hLost (System.exec_still hLoad rfl),
      System.rounds_pos hPc hLost rfl 1, rfl, rfl, by omega⟩
  | lenCheck tail head =>
    obtain ⟨rfl, rfl, hEmpty⟩ := h
    have hMoved : (Pc.lenCheck q.tail head : Pc c α).step q' false =
        some (.loadTail, q', .lenTail) := by
      rw [Pc.step, if_neg hTails]
    have hTailLoad : (Pc.lenTail : Pc c α).step q' false =
        some (.loadTail, q', .lenHead q'.tail) := rfl
    have hHeadLoad : (Pc.lenHead q'.tail : Pc c α).step q' false =
        some (.loadHead, q', .lenCheck q'.tail q'.head) := rfl
    exact ⟨3, _, Nat.succ_pos 2, System.exec_still hMoved
      (System.exec_still hTailLoad (System.exec_still hHeadLoad rfl)),
      System.rounds_pos hPc hMoved rfl 2, rfl, rfl, by omega⟩
  | _ => cases h

omit [DecidableEq ι] [DecidableEq α] in
theorem Starving.short {op : Op α} {r : Ring ι α} {q : Queue c α} {p : Pc c α}
    (h : Starving op r q p) : r.tail = r.head ∨ r.tail = r.head + 1 := by
  cases p with
  | pushCas | lenCheck => exact .inl h.2.2
  | popCas => exact .inr h.2.2
  | _ => cases h

theorem AtRest.starving_push {r : Ring ι α} {q : Queue c α} (hRest : AtRest c r q)
    (hEmpty : r.tail = r.head) (f : Closure) (value : α) (pc : ι → Pc c α) (t : ι) :
    ∃ p, Runs.exec System.step ⟨q, Function.update pc t (.pushLoad f value)⟩
      (List.replicate 2 (.step t false)) = some ⟨q, Function.update pc t p⟩ ∧
      Starving (f.op value) r q p := by
  have hN := c.pos
  have hFree : q.tail = (q.buffer (c.index q.tail)).stamp := (hRest.pushFree (by omega)).symm
  have hTail : (Pc.pushLoad f value).step q false =
      some (.loadTail, q, .pushStamp f value q.tail) := rfl
  have hStamp : (Pc.pushStamp f value q.tail).step q false =
      some (.loadStamp (c.index q.tail), q, .pushCas f value q.tail) := by
    rw [Pc.step, if_pos hFree]
  exact ⟨_, System.exec_still hTail (System.exec_still hStamp rfl), rfl, rfl, hEmpty⟩

theorem AtRest.starving {r : Ring ι α} {q : Queue c α} (hRest : AtRest c r q) {op : Op α}
    (hEmpty : op ≠ .isEmpty) (hFull : op ≠ .isFull)
    (hSize : r.tail = if op = .pop then r.head + 1 else r.head) (pc : ι → Pc c α) (t : ι) :
    ∃ p, Runs.exec System.step ⟨q, Function.update pc t op.start⟩
      (List.replicate 2 (.step t false)) = some ⟨q, Function.update pc t p⟩ ∧
      Starving op r q p := by
  cases op with
  | push value => exact hRest.starving_push hSize .push value pc t
  | forcePush value => exact hRest.starving_push hSize .forcePush value pc t
  | pop =>
    have hSome : r.head < r.tail := by
      rw [hSize]
      exact Nat.lt_succ_self _
    have hStored : q.head + 1 = (q.buffer (c.index q.head)).stamp := (hRest.popReady hSome).symm
    have hHead : (Pc.popLoad : Pc c α).step q false = some (.loadHead, q, .popStamp q.head) := rfl
    have hStamp : (Pc.popStamp q.head : Pc c α).step q false =
        some (.loadStamp (c.index q.head), q, .popCas q.head) := by
      rw [Pc.step, if_pos hStored]
    exact ⟨_, System.exec_still hHead (System.exec_still hStamp rfl), rfl, rfl, hSize⟩
  | len =>
    have hTail : (Pc.lenTail : Pc c α).step q false = some (.loadTail, q, .lenHead q.tail) := rfl
    have hHead : (Pc.lenHead q.tail : Pc c α).step q false =
        some (.loadHead, q, .lenCheck q.tail q.head) := rfl
    exact ⟨_, System.exec_still hTail (System.exec_still hHead rfl), rfl, rfl, hSize⟩
  | isEmpty => exact absurd rfl hEmpty
  | isFull => exact absurd rfl hFull

theorem System.waits_other {t : ι} {labels : List (Label ι α)} (h : ∀ l ∈ labels, l.thread ≠ t)
    (s : System c ι α) : Runs.total System.step (waits t) s labels = 0 := by
  refine Runs.total_eq_zero ?_ s
  intro s l hl
  rw [waits, rounds, steps_of_ne (h l hl), ite_self]

theorem System.waits_alone {t : ι} {labels : List (Label ι α)} (h : ∀ l ∈ labels, l.thread = t)
    {s : System c ι α} (hAlone : ∀ u, u ≠ t → s.pc u = .idle) :
    Runs.total System.step (waits t) s labels = 0 := by
  induction labels generalizing s with
  | nil => rfl
  | cons l labels ih =>
    obtain ⟨hLabel, hOthers⟩ := List.forall_mem_cons.mp h
    have hFree : ¬ s.Waits t := by
      rintro ⟨i, u, hne, -, hOwns⟩
      rw [hAlone u hne] at hOwns
      cases hOwns
    rw [Runs.total, waits, if_neg hFree, Nat.zero_add]
    cases hStep : s.step l with
    | none => rfl
    | some s' =>
      refine ih hOthers ?_
      intro u hne
      obtain ⟨-, hSame⟩ | ⟨op, rfl, -⟩ | ⟨x, rfl, -⟩ | ⟨spurious, a, q, rfl, -⟩ :=
        System.step_thread hStep u
      · exact hSame.trans (hAlone u hne)
      all_goals exact absurd hLabel hne

theorem System.exec_prelude (c : Config) (u : ι) (value : α) (op : Op α) :
    ∃ labels q r, Runs.exec System.step (System.new c ι α) labels =
        some ⟨q, (System.new c ι α).pc⟩ ∧
      (∀ l ∈ labels, l.ofCall u (.push value) ∨ l.ofCall u .pop) ∧
      AtRest (ι := ι) c r q ∧ r.tail = if op = .pop then r.head + 1 else r.head := by
  have hNew := AtRest.new c ι α
  split_ifs
  · have hRoom : (Ring.start ι α).tail < (Ring.start ι α).head + c.N := by
      change 0 < 0 + c.N
      exact Nat.add_pos_right 0 c.pos
    obtain ⟨pushing, hPush, hOwn, -⟩ := System.exec_whole_call (s := System.new c ι α) (t := u)
      rfl (.push value) (Alone.push_finishes (hNew.pushFree hRoom) .push)
    exact ⟨pushing, _, _, hPush, fun l hl => .inl (hOwn l hl), hNew.pushed u value hRoom, rfl⟩
  · exact ⟨[], _, _, rfl, nofun, hNew, rfl⟩

theorem System.exec_starving (c : Config) {t u : ι} (hne : t ≠ u) (value : α) {op : Op α}
    (hEmpty : op ≠ .isEmpty) (hFull : op ≠ .isFull) (n : ℕ) :
    ∃ labels q r p k, Runs.exec System.step (System.new c ι α) labels =
        some ⟨q, Function.update (System.new c ι α).pc t p⟩ ∧
      AtRest (ι := ι) c r q ∧ Starving op r q p ∧
      labels.filter (fun l => l.thread = t) = .call t op :: List.replicate k (.step t false) ∧
      (∀ l ∈ labels, l.thread ≠ t → l.ofCall u (.push value) ∨ l.ofCall u .pop) ∧
      Runs.total System.step (waits t) (.new c ι α) labels = 0 ∧
      n ≤ Runs.total System.step (rounds fun v => v = t) (.new c ι α) labels ∧ n ≤ k := by
  have hOthers : ∀ p v, v ≠ t → Function.update (System.new c ι α).pc t p v = .idle :=
    fun p v hv => Function.update_of_ne hv ..
  have hSteps : ∀ k, ∀ l ∈ (List.replicate k (.step t false) : List (Label ι α)),
      l.thread = t := by
    intro k l hl
    rw [List.eq_of_mem_replicate hl]
    rfl
  have hKept : ∀ k, (List.replicate k (.step t false) : List (Label ι α)).filter
      (fun l => l.thread = t) = List.replicate k (.step t false) := by
    simp [Label.thread]
  induction n with
  | zero =>
    obtain ⟨labels, q, r, hExec, hOwn, hRest, hSize⟩ := System.exec_prelude c u value op
    have hOther := Label.thread_ne_of_ofCall hne value hOwn
    obtain ⟨p, hBegin, hStarving⟩ := hRest.starving hEmpty hFull hSize (System.new c ι α).pc t
    have hIdle : (⟨q, (System.new c ι α).pc⟩ : System c ι α).pc t = .idle := rfl
    have hEnter : (⟨q, (System.new c ι α).pc⟩ : System c ι α).step (.call t op) =
        some ⟨q, Function.update (System.new c ι α).pc t op.start⟩ := by
      rw [System.step, if_pos hIdle]
    have hCall : Runs.exec System.step (System.new c ι α) (labels ++ [.call t op]) =
        some ⟨q, Function.update (System.new c ι α).pc t op.start⟩ :=
      Runs.exec_snoc_eq_some.mpr ⟨_, hExec, hEnter⟩
    refine ⟨labels ++ [.call t op] ++ List.replicate 2 (.step t false), q, r, p, 2,
      Runs.exec_append_eq_some.mpr ⟨_, hCall, hBegin⟩, hRest, hStarving, ?_, ?_, ?_,
      Nat.zero_le _, Nat.zero_le _⟩
    · rw [List.filter_append, List.filter_append, filter_thread_of_ne hOther, hKept]
      simp [Label.thread]
    · intro l hl hThread
      rw [List.mem_append, List.mem_append, List.mem_singleton] at hl
      obtain (hOld | rfl) | hNew := hl
      · exact hOwn l hOld
      · exact absurd rfl hThread
      · exact absurd (hSteps 2 l hNew) hThread
    · rw [Runs.total_append hCall, Runs.total_append hExec, System.waits_other hOther,
        System.waits_alone (hSteps 2) (hOthers _),
        System.waits_alone (by simp [Label.thread]) fun _ _ => rfl]
  | succ n ih =>
    obtain ⟨labels, q, r, p, k, hExec, hRest, hStarving, hFilter, hOwn, hWaits, hRounds, hk⟩ := ih
    obtain ⟨cycle, q', r', hCycle, hCycleOwn, hRest', hHead, hTail⟩ :=
      hRest.exec_cycle hStarving.short (hOthers p u hne.symm) value
    have hOther := Label.thread_ne_of_ofCall hne value hCycleOwn
    obtain ⟨j, p', hj, hRound, hAgain, hStarving'⟩ :=
      hStarving.round hRest hRest' hHead hTail (System.new c ι α).pc t
    have hAfter := Runs.exec_append_eq_some.mpr ⟨_, hExec, hCycle⟩
    refine ⟨labels ++ cycle ++ List.replicate j (.step t false), q', r', p', k + j,
      Runs.exec_append_eq_some.mpr ⟨_, hAfter, hRound⟩, hRest', hStarving', ?_, ?_, ?_, ?_,
      by omega⟩
    · rw [List.filter_append, List.filter_append, hFilter, filter_thread_of_ne hOther, hKept,
        List.append_nil, List.cons_append, List.replicate_append_replicate]
    · intro l hl hThread
      rw [List.mem_append, List.mem_append] at hl
      obtain (hOld | hNew) | hLast := hl
      · exact hOwn l hOld hThread
      · exact hCycleOwn l hNew
      · exact absurd (hSteps j l hLast) hThread
    · rw [Runs.total_append hAfter, Runs.total_append hExec, hWaits,
        System.waits_other hOther, System.waits_alone (hSteps j) (hOthers p)]
    · rw [Runs.total_append hAfter, Runs.total_append hExec]
      omega

end Runs

end NureQueue
