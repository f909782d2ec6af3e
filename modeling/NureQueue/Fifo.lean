import NureQueue.Lib.Linearizability
import NureQueue.Ownership

/-! # The queue is a linearizable bounded FIFO queue

The object is a `VecDeque` limited to N elements. A represented state is mapped to a
state of the atomic object: a call is pending until the move of the ring that decides
its result, and committed to that result from then on.
-/

namespace NureQueue

open Linearizability

universe u v

variable {c : Config} {ι : Type v} {α : Type u}

/-- A `VecDeque` that is kept to at most N elements. -/
def fifo (N : ℕ) : Object (Op α) (Ret α) (List α) where
  init := []
  apply xs
    | .push value => if xs.length < N then (xs ++ [value], .pushOk) else (xs, .pushErr value)
    | .forcePush value =>
      if xs.length < N then (xs ++ [value], .forcePush none)
      else (xs.tail ++ [value], .forcePush (some xs.head?))
    | .pop => (xs.tail, .pop (xs.head?.map some))
    | .isEmpty => (xs, .isEmpty xs.isEmpty)
    | .isFull => (xs, .isFull (xs.length = N))
    | .len => (xs, .len xs.length)

section Apply

variable {N : ℕ} {xs : List α} {value : α}

theorem fifo_push_of_lt (h : xs.length < N) (f : Closure) :
    (fifo N).apply xs (f.op value) = (xs ++ [value], f.ok) := by
  cases f <;> simp [fifo, Closure.op, Closure.ok, h]

theorem fifo_push_of_full (h : xs.length = N) :
    (fifo N).apply xs (.push value) = (xs, .pushErr value) := by
  simp [fifo, h]

theorem fifo_forcePush_of_full (h : xs.length = N) :
    (fifo N).apply xs (.forcePush value) =
      (xs.tail ++ [value], .forcePush (some xs.head?)) := by
  simp [fifo, h]

end Apply

def Op.observes : Op α → Bool
  | .isEmpty | .isFull | .len => true
  | _ => false

def Ret.observes : Ret α → Bool
  | .isEmpty _ | .isFull _ | .len _ => true
  | _ => false

/-- The calls and returns of `push`, `force_push` and `pop`. -/
def Label.event? : Label ι α → Option (Event ι (Op α) (Ret α))
  | .call t op => if op.observes then none else some (.call t op)
  | .step _ _ => none
  | .ret t r => if r.observes then none else some (.ret t r)

def history (labels : List (Label ι α)) : History ι (Op α) (Ret α) :=
  labels.filterMap Label.event?

/-- What a call has come to, where k is the position noted for its thread. -/
def Pc.phase (r : Ring ι α) (k : ℕ) : Pc c α → Phase (Op α) (Ret α)
  | .pushLoad f value | .pushStamp f value _ | .pushCas f value _ => .pending (f.op value)
  | .fullLoad value _ => .pending (.push value)
  | .forceCas value _ => .pending (.forcePush value)
  | .popLoad | .popStamp _ | .popCas _ | .popTail _ => .pending .pop
  | .pushWrite f _ _ | .pushPublish f _ => .committed f.ok
  | .forceStore _ _ | .forceReplace _ _ => .committed (.forcePush (some r.log[k - c.N]?))
  | .forcePublish _ old => .committed (.forcePush (some old))
  | .popRead _ => .committed (.pop (some r.log[k]?))
  | .popPublish _ msg => .committed (.pop (some msg))
  | .done x => if x.observes then .idle else .committed x
  | .idle | .emptyHead | .emptyTail _ | .fullTail | .fullHead _ | .lenTail | .lenHead _
  | .lenCheck .. => .idle

theorem Pc.phase_of_pending {p : Pc c α} {o : Op α} (h : p.pending = some o) (r : Ring ι α)
    (k : ℕ) : p.phase r k = if o.observes then .idle else .pending o := by
  cases p <;> cases h <;> first | rfl | (rename_i f _; cases f <;> rfl) | skip
  all_goals
    rename_i f _ _
    cases f <;> rfl

theorem Op.start_pending (op : Op α) : (op.start : Pc c α).pending = some op := by
  cases op <;> rfl

def atomic (m : Monitored c ι α) (r : Ring ι α) : Atomic ι (Op α) (Ret α) (List α) where
  obj := r.items
  phase t := (m.pc t).phase r (m.seen t)

section Phases

variable {r r' : Ring ι α} {q : Queue c α} {t : ι} {k : ℕ} {p p' : Pc c α}

theorem Carried.eq {content : MaybeUninit α} (h : Carried r k content) :
    r.log[k]? = content := by
  obtain ⟨x, hx, rfl⟩ := h
  exact hx

theorem getElem?_isPrefix {j : ℕ} {content : MaybeUninit α} (h : Carried r j content)
    (hLog : r.log <+: r'.log) : r'.log[j]? = r.log[j]? :=
  (h.mono hLog).eq.trans h.eq.symm

theorem Local.phase_mono (h : Local c r q t k p) (hLog : r.log <+: r'.log) :
    p.phase r' k = p.phase r k := by
  cases p with
  | forceStore | forceReplace =>
    obtain ⟨j, rfl, -, -, -, hCarried, -⟩ := h
    simp only [Pc.phase, Nat.add_sub_cancel, getElem?_isPrefix hCarried hLog]
  | popRead =>
    obtain ⟨-, -, hCarried⟩ := h
    simp only [Pc.phase, getElem?_isPrefix hCarried hLog]
  | _ => rfl

theorem Move.log (hMove : Move c t r p r' p') : r.log <+: r'.log := by
  cases hMove with
  | claimPush => exact List.prefix_append _ _
  | claimForce => exact List.prefix_append _ _
  | _ => exact List.prefix_rfl

end Phases

section Step

variable {m : Monitored c ι α} {r r' : Ring ι α} {t : ι} {k : ℕ}

theorem Represents.held_unique (h : Represents m r) {j : ℕ} {x y : Cell ι}
    (hx : r.cell (j % c.N) = x) (hy : r.cell (k % c.N) = y) (hxt : x.hold.holder = some t)
    (hyt : y.hold.holder = some t) : x = y := by
  have hj := h.holder _ (mod_lt c j) t (by rw [hx]; exact hxt)
  have hk := h.holder _ (mod_lt c k) t (by rw [hy]; exact hyt)
  rw [← hx, ← hy, Option.some.inj (hj.symm.trans hk)]

theorem Represents.popRead_phase (h : Represents m r) {head : c.Index}
    (hPc : m.pc t = .popRead head) (hCell : r.cell (k % c.N) = ⟨k, .popping t⟩) :
    (m.pc t).phase r (m.seen t) = .committed (.pop (some r.log[k]?)) := by
  have hLocal := h.locals t
  rw [hPc] at hLocal ⊢
  obtain ⟨-, hOwn, -⟩ := hLocal
  cases h.held_unique hOwn hCell rfl rfl
  rfl

theorem Represents.force_phase (h : Represents m r) {value : α} {tail : c.Index}
    (hPc : m.pc t = .forceStore value tail ∨ m.pc t = .forceReplace value tail)
    (hCell : r.cell (k % c.N) = ⟨k, .forcing t⟩) :
    (m.pc t).phase r (m.seen t) = .committed (.forcePush (some r.log[k]?)) := by
  have hLocal := h.locals t
  obtain hPc | hPc := hPc
  all_goals
    rw [hPc] at hLocal ⊢
    obtain ⟨j, hj, -, hOwn, -⟩ := hLocal
    cases h.held_unique hOwn hCell rfl rfl
    rw [Pc.phase, hj, Nat.add_sub_cancel]

/-- What a move of thread t is for the atomic object: a commit of its call, or nothing. -/
inductive Shows (N : ℕ) (xs : List α) (x : Phase (Op α) (Ret α)) :
    List α → Phase (Op α) (Ret α) → Prop
  | nothing : Shows N xs x xs x
  | commit (o : Op α) (hx : x = .pending o) :
    Shows N xs x ((fifo N).apply xs o).1 (.committed ((fifo N).apply xs o).2)

theorem Shows.of_apply {N : ℕ} {xs ys : List α} {o : Op α} {y : Ret α}
    (h : (fifo N).apply xs o = (ys, y)) : Shows N xs (.pending o) ys (.committed y) := by
  have hCommit : Shows N xs (.pending o) _ _ := .commit o rfl
  rw [h] at hCommit
  exact hCommit

theorem head?_items (r : Ring ι α) : r.items.head? = r.log[r.head]? := by
  rw [Ring.items, List.head?_drop]

theorem items_claimPop (r : Ring ι α) (N : ℕ) (t : ι) :
    (r.claimPop N t).items = r.items.tail := by
  rw [Ring.items, Ring.items, List.tail_drop]
  rfl

theorem items_snoc (r : Ring ι α) (h : r.head ≤ r.log.length) (value : α) :
    (r.log ++ [value]).drop r.head = r.items ++ [value] :=
  List.drop_append_of_le_length h

/-- The commit points: a push or `force_push` that is not full at its exchange on tail, a
pop and a `force_push` that is full at their exchange on head, a full push at its load
of head and an empty pop at its load of tail. -/
theorem Move.shows [DecidableEq ι] {a : Access} {q : Queue c α} {p : Pc c α}
    (h : Represents m r) (h' : Represents (m.access t a q p) r')
    (hMove : Move c t r (m.pc t) r' p) :
    Shows c.N r.items ((m.pc t).phase r (m.seen t)) r'.items (p.phase r' (m.note t p)) := by
  have hN := c.pos
  have hLength := h.ok.items_length
  have hHeadLe := h.ok.head_le
  have hAfter : ((m.access t a q p).pc t).phase r' ((m.access t a q p).seen t) =
      p.phase r' (m.note t p) := by
    simp [Monitored.access]
  have hPc' : (m.access t a q p).pc t = p := Function.update_self ..
  rw [← hAfter]
  generalize hPc : m.pc t = p₀ at hMove
  cases hMove with
  | retry o hp hp' =>
    rw [hPc', Pc.phase_of_pending hp, Pc.phase_of_pending hp']
    exact .nothing
  | claimPush f value tail hCell =>
    have hFits : r.tail ≤ r.tail ∧ r.tail < r.head + c.N := by
      have hFits := h.ok.fits _ (mod_lt c r.tail)
      rwa [hCell] at hFits
    have hHalf := h.ok.half_none_of_free hCell
    have hLog := h.ok.log_length
    simp only [hHalf] at hLength hLog
    rw [hPc']
    apply Shows.of_apply
    rw [fifo_push_of_lt (by simp at hLength; omega), ← items_snoc r (by simp at hLog; omega)]
    rfl
  | write =>
    rw [hPc']
    exact .nothing
  | publish f =>
    rw [hPc']
    cases f <;> exact .nothing
  | full value tail hFull hHalf =>
    rw [hPc']
    exact Shows.of_apply (fifo_push_of_full (by simp [hHalf] at hLength; omega))
  | claimForce value tail hFull hHalf hCell =>
    have hLog := h.ok.log_length
    simp only [hHalf] at hLength hLog
    rw [h'.force_phase (.inl hPc') (Ring.claimForce_cell_self r t value)]
    apply Shows.of_apply
    rw [fifo_forcePush_of_full (by simp at hLength; omega), head?_items]
    simp at hLog
    have hItems : (r.claimForce c.N t value).items = r.items.tail ++ [value] := by
      rw [Ring.items, Ring.items, List.tail_drop]
      exact List.drop_append_of_le_length (show r.head + 1 ≤ r.log.length by omega)
    have hOld : (r.claimForce c.N t value).log[r.head]? = r.log[r.head]? :=
      List.getElem?_append_left (by omega)
    rw [hItems, hOld]
  | storeTail =>
    rw [hAfter]
    exact .nothing
  | replace value tail old j hCell hOld =>
    rw [hPc', ← hPc, h.force_phase (.inr hPc) hCell, hOld.eq]
    exact .nothing
  | publishForce =>
    rw [hPc']
    exact .nothing
  | claimPop head hCell =>
    have hFits : r.head ≤ r.head ∧ r.head < r.tail := by
      have hFits := h.ok.fits _ (mod_lt c r.head)
      rwa [hCell] at hFits
    have hLog := h.ok.log_length
    have hOld : (r.claimPop c.N t).log[r.head]? = r.items.head? := (head?_items r).symm
    obtain ⟨x, hx⟩ : ∃ x, r.items.head? = some x := by
      rw [head?_items]
      exact ⟨_, List.getElem?_eq_getElem (by omega)⟩
    rw [h'.popRead_phase hPc' (Ring.claimPop_cell_self r t), items_claimPop, hOld]
    apply Shows.of_apply
    simp [fifo, hx]
  | read head msg j hCell hMsg =>
    rw [hPc', ← hPc, h.popRead_phase hPc hCell, hMsg.eq]
    exact .nothing
  | release =>
    rw [hPc']
    exact .nothing
  | empty head hEmpty hHalf =>
    have hNil : r.items = [] := by
      rw [← List.length_eq_zero_iff, hLength, hHalf, hEmpty]
      simp
    rw [hPc', hNil]
    apply Shows.of_apply
    rfl
  | isEmpty | isFull | len =>
    rw [hPc']
    exact .nothing

end Step

section Simulation

variable [DecidableEq ι] [DecidableEq α]

omit [DecidableEq α] in
theorem atomic_eq {m n : Monitored c ι α} {r r' : Ring ι α} {t : ι} {xs : List α}
    {x : Phase (Op α) (Ret α)} (h : Represents m r) (hLog : r.log <+: r'.log)
    (hItems : r'.items = xs) (hOwn : (n.pc t).phase r' (n.seen t) = x)
    (hOther : ∀ u, u ≠ t → n.pc u = m.pc u ∧ n.seen u = m.seen u) :
    atomic n r' = ⟨xs, Function.update (atomic m r).phase t x⟩ := by
  rw [atomic, hItems]
  congr
  funext u
  obtain rfl | hu := eq_or_ne u t
  · rw [Function.update_self, hOwn]
  · rw [Function.update_of_ne hu, (hOther u hu).1, (hOther u hu).2]
    exact (h.locals u).phase_mono hLog

/-- The atomic object goes from one state to another, with these calls and returns. -/
def Answers (N : ℕ) (a : Atomic ι (Op α) (Ret α) (List α)) (events : History ι (Op α) (Ret α))
    (b : Atomic ι (Op α) (Ret α) (List α)) : Prop :=
  ∃ above, Runs.exec (Atomic.step (fifo N)) a above = some b ∧
    above.filterMap AtomicLabel.event? = events

theorem Represents.call_answered {m : Monitored c ι α} {r : Ring ι α} {t : ι}
    (h : Represents m r) (hIdle : m.pc t = .idle) (op : Op α) :
    Answers c.N (atomic m r) (history [.call t op])
      (atomic { m with pc := Function.update m.pc t op.start } r) := by
  have hPhase : (atomic m r).phase t = .idle := by simp [atomic, hIdle, Pc.phase]
  have hStart := Pc.phase_of_pending (c := c) op.start_pending r (m.seen t)
  have hNext := atomic_eq (t := t) (n := { m with pc := Function.update m.pc t op.start }) h
    List.prefix_rfl rfl (by simpa using hStart) (fun u hu => ⟨by simp [hu], rfl⟩)
  cases hObserves : op.observes with
  | true =>
    refine ⟨[], ?_, by simp [history, Label.event?, hObserves]⟩
    simp only [hObserves, if_true] at hNext
    rw [Runs.exec_nil, hNext, ← hPhase, Function.update_eq_self]
    rfl
  | false =>
    refine ⟨[.event (.call t op)], ?_, by
      simp [history, Label.event?, hObserves, AtomicLabel.event?]⟩
    simp only [hObserves] at hNext
    rw [Runs.exec_singleton, Atomic.step, hPhase, hNext]
    rfl

theorem Represents.move_answered {m : Monitored c ι α} {r r' : Ring ι α} {t : ι} {a : Access}
    {q : Queue c α} {p : Pc c α} (h : Represents m r) (h' : Represents (m.access t a q p) r')
    (hMove : Move c t r (m.pc t) r' p) :
    Answers c.N (atomic m r) [] (atomic (m.access t a q p) r') := by
  have hShows := hMove.shows h h'
  have hNext := atomic_eq (t := t) (n := m.access t a q p) h hMove.log rfl
    (x := p.phase r' (m.note t p)) (by simp [Monitored.access])
    (fun u hu => by simp [Monitored.access, hu])
  have hPhase : (atomic m r).phase t = (m.pc t).phase r (m.seen t) := rfl
  generalize hItems : r'.items = xs at hShows hNext
  generalize hAfter : p.phase r' (m.note t p) = y at hShows hNext
  cases hShows with
  | nothing =>
    refine ⟨[], ?_, rfl⟩
    rw [Runs.exec_nil, hNext, ← hPhase, Function.update_eq_self]
    rfl
  | commit o ho =>
    refine ⟨[.commit t], ?_, rfl⟩
    rw [Runs.exec_singleton, Atomic.step, hPhase, ho, hNext]
    rfl

theorem Represents.ret_answered {m : Monitored c ι α} {r : Ring ι α} {t : ι} {x : Ret α}
    (h : Represents m r) (hDone : m.pc t = .done x) :
    Answers c.N (atomic m r) (history [.ret t x])
      (atomic { m with pc := Function.update m.pc t .idle } r) := by
  have hPhase : (atomic m r).phase t = if x.observes then .idle else .committed x := by
    simp [atomic, hDone, Pc.phase]
  have hNext := atomic_eq (t := t) (n := { m with pc := Function.update m.pc t .idle }) h
    List.prefix_rfl rfl (x := .idle) (by simp [Pc.phase]) (fun u hu => ⟨by simp [hu], rfl⟩)
  cases hObserves : x.observes with
  | true =>
    refine ⟨[], ?_, by simp [history, Label.event?, hObserves]⟩
    simp only [hObserves, if_true] at hPhase
    rw [Runs.exec_nil, hNext, ← hPhase, Function.update_eq_self]
    rfl
  | false =>
    refine ⟨[.event (.ret t x)], ?_, by
      simp [history, Label.event?, hObserves, AtomicLabel.event?]⟩
    simp only [hObserves] at hPhase
    rw [Runs.exec_singleton, Atomic.step, hPhase, hNext]
    simp [atomic]

/-- Each label of a timely run is answered by the atomic object: a call, a return or a
commit, or nothing at all. -/
theorem Represents.simulation {m m' : Monitored c ι α} {r : Ring ι α} {l : Label ι α}
    (h : Represents m r) (hStep : m.timelyStep l = some m') :
    ∃ r' above, Represents m' r' ∧
      Runs.exec (Atomic.step (fifo c.N)) (atomic m r) above = some (atomic m' r') ∧
      above.filterMap AtomicLabel.event? = [l].filterMap Label.event? := by
  obtain ⟨t, op, rfl, hIdle, rfl⟩ |
    ⟨t, spurious, a, q, p, rfl, hTimely, hAccess, rfl⟩ | ⟨t, x, rfl, hDone, rfl⟩ :=
      Monitored.timelyStep_cases hStep
  · obtain ⟨above, hAbove, hEvents⟩ := h.call_answered hIdle op
    exact ⟨r, above, h.call hIdle op, hAbove, hEvents⟩
  · obtain ⟨r', h', hMove⟩ := h.advances hTimely hAccess
    obtain ⟨above, hAbove, hEvents⟩ := h.move_answered h' hMove
    exact ⟨r', above, h', hAbove, hEvents⟩
  · obtain ⟨above, hAbove, hEvents⟩ := h.ret_answered hDone
    exact ⟨r, above, h.ret hDone, hAbove, hEvents⟩

/-- Every timely run of a new queue is explained by an order of its calls, whose end is
the ring that the last state represents. -/
theorem Monitored.TimelyRun.explained {m : Monitored c ι α} {labels : List (Label ι α)}
    (hRun : (Monitored.new c ι α).TimelyRun labels m) :
    ∃ r order, Represents m r ∧ Atomic.Explains (fifo c.N) (history labels) order (atomic m r) := by
  have hStart : Represents (Monitored.new c ι α) (Ring.start ι α) ∧
      atomic (Monitored.new c ι α) (Ring.start ι α) = Atomic.start (fifo c.N) :=
    ⟨Represents.new c ι α, rfl⟩
  obtain ⟨above, a, hAbove, hEvents, r, h, rfl⟩ :=
    Runs.exec_simulation (R := fun m a => ∃ r, Represents m r ∧ atomic m r = a)
      Label.event? AtomicLabel.event? (fun m l m' a ⟨r, h, hEq⟩ hStep => by
        obtain ⟨r', above, h', hExec, hEvents⟩ := h.simulation hStep
        exact ⟨above, _, hEq ▸ hExec, hEvents, r', h', rfl⟩)
      ⟨_, hStart⟩ hRun
  obtain ⟨order, hExplains⟩ := Atomic.explains (fifo c.N) hAbove
  exact ⟨r, order, h, by rw [history, ← hEvents]; exact hExplains⟩

/-- `push`, `force_push` and `pop` are linearizable: in every timely run of any number of
threads, the history of these calls has an order that respects real time and in which
each result is that of the bounded FIFO queue. -/
theorem push_forcePush_pop_linearizable {m : Monitored c ι α} {labels : List (Label ι α)}
    (hRun : (Monitored.new c ι α).TimelyRun labels m) :
    Linearizable (fifo c.N) (history labels) := by
  obtain ⟨r, order, -, hExplains⟩ := hRun.explained
  exact ⟨order, hExplains.linearizes⟩

/-- Thread 1 pops between the two moves of a `force_push` of thread 0 and after it. -/
def forceThenPop : List (Label (Fin 2) ℕ) :=
  [Label.call 0 (.push 1)] ++ List.replicate 5 (Label.step 0 false) ++
  [Label.ret 0 .pushOk, Label.call 0 (.forcePush 2), Label.step 0 false, Label.step 0 false,
    Label.call 1 .pop, Label.step 0 false, Label.step 1 false, Label.step 1 false] ++
  List.replicate 3 (Label.step 0 false) ++ [Label.ret 0 (.forcePush (some (some 1)))] ++
  List.replicate 5 (Label.step 1 false) ++ [Label.ret 1 (.pop (some (some 2)))]

theorem forceThenPop_linearizable : Linearizable (fifo 1) (history forceThenPop) :=
  push_forcePush_pop_linearizable (c := .one)
    (m := (Runs.exec Monitored.timelyStep (.new .one (Fin 2) ℕ) forceThenPop).get (by decide))
    (Option.some_get _).symm

end Simulation

end NureQueue
