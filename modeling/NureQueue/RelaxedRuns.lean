import NureQueue.Relaxed

/-! # Runs whose loads return old values

The invariant of these runs is that of the timely runs, for the system as it is now, and that
every memory of the past is one of an earlier ring. A load from the past is then a step of
its call that decides nothing; so the runs are linearizable as they are without such loads.
-/

namespace NureQueue

open Linearizability HappensBefore

universe u v

variable {c : Config} {ι : Type v} {α : Type u}

namespace Relaxed

/-- The invariant: the system as it is represents a ring, and all that a load can return is
of an earlier ring. -/
structure Consistent (m : Relaxed c ι α) (r : Ring ι α) : Prop where
  represents : Represents m.toMonitored r
  ordered : Ordered m.toMonitored r m.trace
  past : ∀ x ∈ m.past, ∃ r₀, Earlier r₀ r m.trace x

theorem Consistent.new (c : Config) (ι : Type v) (α : Type u) :
    (Relaxed.new c ι α).Consistent (Ring.start ι α) where
  represents := Represents.new c ι α
  ordered := Ordered.new c ι α
  past _ hx := by cases hx

variable {m : Relaxed c ι α} {r r' : Ring ι α}

theorem Consistent.next (h : m.Consistent r) {l : Label ι α} {m₁ : Monitored c ι α}
    (h' : Represents m₁ r') (hOrder : Ordered m₁ r' (m.next l m₁).trace)
    (hEarlier : ∀ r₀ (x : Memory c α), Earlier r₀ r m.trace x →
      Earlier r₀ r' (m.next l m₁).trace x) :
    (m.next l m₁).Consistent r' where
  represents := h'
  ordered := hOrder
  past x hx := by
    obtain hOld | hNew := List.mem_append.mp hx
    · obtain ⟨r₀, hPast⟩ := h.past x hOld
      exact ⟨r₀, hEarlier r₀ x hPast⟩
    · cases List.mem_singleton.mp hNew
      exact ⟨r, hEarlier r _ (h.represents.earlier m.trace)⟩

variable [DecidableEq ι] [DecidableEq α]

theorem Consistent.now (h : m.Consistent r) {l : Label ι α} {m₁ : Monitored c ι α}
    (hStep : m.toMonitored.timelyStep l = some m₁) :
    ∃ r', (m.next l m₁).Consistent r' ∧
      Answers c.N (atomic m.toMonitored r) (history [l]) (atomic m₁ r') := by
  obtain ⟨t, op, rfl, hIdle, rfl⟩ |
    ⟨t, spurious, a, q, p, rfl, hTimely, hAccess, rfl⟩ | ⟨t, x, rfl, hDone, rfl⟩ :=
      Monitored.timelyStep_cases hStep
  · have hTrace : ∀ m₁, (m.next (.call t op) m₁).trace = m.trace := fun _ => List.append_nil _
    refine ⟨r, h.next (h.represents.call hIdle op) ?_ ?_, h.represents.call_answered hIdle op⟩
    · rw [hTrace]
      exact h.ordered.repoint (by cases op <;> rfl)
    · intro r₀ x hPast
      rwa [hTrace]
  · obtain ⟨r', h', hMove⟩ := h.represents.advances hTimely hAccess
    have hTrace : ∀ m₁, (m.next (.step t spurious) m₁).trace = m.trace ++ [⟨t, a.action⟩] := by
      intro m₁
      rw [Relaxed.next, System.event?, hAccess]
      rfl
    refine ⟨r', h.next h' ?_ ?_, h.represents.move_answered h' hMove⟩
    · rw [hTrace]
      exact h.ordered.access h.represents hAccess h' hMove
    · intro r₀ x hPast
      rw [hTrace]
      exact hPast.move h.represents hAccess h' hMove
  · have hTrace : ∀ m₁, (m.next (.ret t x) m₁).trace = m.trace := fun _ => List.append_nil _
    refine ⟨r, h.next (h.represents.ret hDone) ?_ ?_, h.represents.ret_answered hDone⟩
    · rw [hTrace]
      exact h.ordered.repoint rfl
    · intro r₀ x hPast
      rwa [hTrace]

/-- One load from memory of the past. The atomic object does nothing. -/
theorem Consistent.old (h : m.Consistent r) {t : ι} {x : Memory c α} {a : Access}
    {q : Queue c α} {p : Pc c α} (hPast : x ∈ m.past) (hOld : (m.pc t).mayReadOld = true)
    (hTimely : m.toMonitored.Timely t) (hYoung : m.Young t x)
    (hStep : (m.pc t).step x.queue true = some (a, q, p)) :
    (m.load t x a p).Consistent r ∧
      Answers c.N (atomic m.toMonitored r) [] (atomic (m.load t x a p).toMonitored r) := by
  obtain ⟨r₀, hEarlier⟩ := h.past x hPast
  have hLoaded := h.represents.loaded hEarlier hOld hTimely hYoung hStep
  refine ⟨⟨h.represents.reload hLoaded, h.ordered.load hEarlier hLoaded, ?_⟩, [], ?_, rfl⟩
  · intro y hy
    obtain ⟨r₁, hPast₁⟩ := h.past y hy
    exact ⟨r₁, hPast₁.snoc (Nat.le_refl _) (Nat.le_refl _) (fun _ => Nat.le_refl _)
      fun i hAction => absurd hAction (x.action_ne_release m.trace a i)⟩
  · obtain ⟨o, hPending, hPending'⟩ := hLoaded.pending
    have hSame : p.phase r (x.note (m.seen t) p) = (atomic m.toMonitored r).phase t :=
      (Pc.phase_of_pending hPending' _ _).trans (Pc.phase_of_pending hPending _ _).symm
    rw [Runs.exec_nil, atomic_eq (t := t) (n := (m.load t x a p).toMonitored) h.represents
      List.prefix_rfl rfl (x := p.phase r (x.note (m.seen t) p)) (by simp [Relaxed.load])
      (fun u hu => by simp [Relaxed.load, hu]), hSame, Function.update_eq_self]
    rfl

theorem Consistent.timelyStep {m' : Relaxed c ι α} {l : RelaxedLabel ι α} (h : m.Consistent r)
    (hStep : m.timelyStep l = some m') :
    ∃ r', m'.Consistent r' ∧ Answers c.N (atomic m.toMonitored r) (history l.now?.toList)
      (atomic m'.toMonitored r') := by
  obtain ⟨l', m₁, rfl, hNow, rfl⟩ |
    ⟨t, i, x, a, q, p, rfl, hOld, hPast, hTimely, hYoung, hAccess, rfl⟩ := timelyStep_cases hStep
  · exact h.now hNow
  · exact ⟨r, h.old hPast hOld hTimely hYoung hAccess⟩

def TimelyRun (m : Relaxed c ι α) (labels : List (RelaxedLabel ι α)) (m' : Relaxed c ι α) :
    Prop :=
  Runs.exec Relaxed.timelyStep m labels = some m'

theorem TimelyRun.explained {labels : List (RelaxedLabel ι α)}
    (hRun : (Relaxed.new c ι α).TimelyRun labels m) :
    ∃ r order, m.Consistent r ∧
      Atomic.Explains (fifo c.N) (history (labels.filterMap RelaxedLabel.now?)) order
        (atomic m.toMonitored r) := by
  have hStart : (Relaxed.new c ι α).Consistent (Ring.start ι α) ∧
      atomic (Relaxed.new c ι α).toMonitored (Ring.start ι α) = Atomic.start (fifo c.N) :=
    ⟨Consistent.new c ι α, rfl⟩
  obtain ⟨above, a, hAbove, hEvents, r, h, rfl⟩ :=
    Runs.exec_simulation (R := fun m a => ∃ r, Consistent m r ∧ atomic m.toMonitored r = a)
      (fun l => (RelaxedLabel.now? l).bind Label.event?) AtomicLabel.event?
      (fun m l m' a ⟨r, h, hEq⟩ hStep => by
        obtain ⟨r', h', above, hExec, hSame⟩ := h.timelyStep hStep
        refine ⟨above, _, hEq ▸ hExec, hSame.trans ?_, r', h', rfl⟩
        cases l <;> rfl)
      ⟨_, hStart⟩ hRun
  obtain ⟨order, hExplains⟩ := Atomic.explains (fifo c.N) hAbove
  refine ⟨r, order, h, ?_⟩
  rw [history, List.filterMap_filterMap, ← hEvents]
  exact hExplains

/-- What a run with old loads, with the state at its end, promises to its callers. -/
structure Sound (labels : List (RelaxedLabel ι α)) (m : Relaxed c ι α) : Prop where
  linearizable : Linearizable (fifo c.N) (history (labels.filterMap RelaxedLabel.now?))
  owner : ∀ t u i, (m.pc t).owns = some i → (m.pc u).owns = some i → t = u
  safe : ∀ t spurious a q p, (m.pc t).step m.queue spurious = some (a, q, p) → a.Safe m.queue
  raceFree : RaceFree m.trace

theorem TimelyRun.sound {labels : List (RelaxedLabel ι α)}
    (hRun : (Relaxed.new c ι α).TimelyRun labels m) : Sound labels m := by
  obtain ⟨r, order, h, hExplains⟩ := hRun.explained
  constructor
  · exact ⟨order, hExplains.linearizes⟩
  · intro t u i ht hu
    exact h.represents.owner_unique ht hu
  · intro t spurious a q p hStep
    exact h.represents.access_safe hStep
  · exact h.ordered.raceFree

theorem tail_moves_step {m' : Relaxed c ι α} {threads : Finset ι}
    (hStand : StandAt Pc.mayMoveTail m.pc threads) {l : RelaxedLabel ι α}
    (hStep : m.timelyStep l = some m') :
    ∃ threads', StandAt Pc.mayMoveTail m'.pc threads' ∧
      m'.moves .tail + threads'.card ≤
        m.moves .tail + threads.card + l.now?.toList.countP Label.beginsPush := by
  obtain ⟨l', m₁, rfl, hNow, rfl⟩ | ⟨t, i, x, a, q, p, rfl, -, -, -, -, hAccess, rfl⟩ :=
    timelyStep_cases hStep
  · obtain ⟨threads', hStand', hMoves⟩ := Monitored.tail_moves_step hStand hNow
    refine ⟨threads', hStand', hMoves.trans_eq ?_⟩
    rw [RelaxedLabel.now?, Option.toList_some, List.countP_singleton]
    cases l'.beginsPush <;> rfl
  · obtain ⟨threads', hStand', hCard⟩ := hStand.update t p
    have hMove := Pc.mayMoveTail_step hAccess
    refine ⟨threads', hStand', ?_⟩
    change m.moves .tail + threads'.card ≤ m.moves .tail + threads.card + 0
    omega

theorem TimelyRun.tail_le {labels : List (RelaxedLabel ι α)}
    (hRun : (Relaxed.new c ι α).TimelyRun labels m) :
    m.moves .tail ≤ (labels.filterMap RelaxedLabel.now?).countP Label.beginsPush := by
  suffices h : ∃ threads, StandAt Pc.mayMoveTail m.pc threads ∧
      m.moves .tail + threads.card ≤
        (labels.filterMap RelaxedLabel.now?).countP Label.beginsPush by
    obtain ⟨threads, -, hMoves⟩ := h
    omega
  refine Runs.exec_induction (P := fun labels (m : Relaxed c ι α) => ∃ threads,
    StandAt Pc.mayMoveTail m.pc threads ∧ m.moves .tail + threads.card ≤
      (labels.filterMap RelaxedLabel.now?).countP Label.beginsPush)
    ⟨∅, StandAt.new rfl, Nat.le_refl _⟩ ?_ labels m hRun
  rintro labels m l m' - ⟨threads, hStand, hCount⟩ hStep
  obtain ⟨threads', hStand', hMoves⟩ := tail_moves_step hStand hStep
  refine ⟨threads', hStand', ?_⟩
  have hLast : [l].filterMap RelaxedLabel.now? = l.now?.toList := by cases l <;> rfl
  rw [List.filterMap_append, List.countP_append, hLast]
  omega

theorem TimelyRun.timely_of_few {labels : List (RelaxedLabel ι α)}
    (hRun : (Relaxed.new c ι α).TimelyRun labels m)
    (hFew : (labels.filterMap RelaxedLabel.now?).countP Label.beginsPush < 2 ^ (c.w - 2))
    (l : RelaxedLabel ι α) : m.Timely l := by
  obtain ⟨r, -, h, -⟩ := hRun.explained
  have hTail := hRun.tail_le
  have hK := c.two_pow_le_half_K
  have hMoves : ∀ w, m.moves w < c.K / 2 := by
    intro w
    have hw := h.represents.moves_le_tail w
    omega
  have hNow : ∀ t, m.toMonitored.Timely t := by
    intro t w _
    exact Nat.lt_add_left _ (hMoves w)
  cases l with
  | now l =>
    cases l with
    | step t spurious => exact hNow t
    | call t op | ret t x => trivial
  | old t i =>
    refine ⟨hNow t, ?_⟩
    intro x _ w _
    exact Nat.lt_add_left _ (hMoves w)

theorem exec_timely {labels : List (RelaxedLabel ι α)}
    (hRun : Runs.exec (Relaxed.step Pc.mayReadOld) (Relaxed.new c ι α) labels = some m)
    (hFew : (labels.filterMap RelaxedLabel.now?).countP Label.beginsPush < 2 ^ (c.w - 2)) :
    (Relaxed.new c ι α).TimelyRun labels m := by
  revert hFew
  refine Runs.exec_induction (P := fun labels m =>
    (labels.filterMap RelaxedLabel.now?).countP Label.beginsPush < 2 ^ (c.w - 2) →
      (Relaxed.new c ι α).TimelyRun labels m) (fun _ => rfl) ?_ labels m hRun
  intro labels m l m' _ ih hStep hFew
  rw [List.filterMap_append, List.countP_append] at hFew
  have hLabels := ih (by omega)
  refine Runs.exec_snoc_eq_some.mpr ⟨m, hLabels, ?_⟩
  rw [Relaxed.timelyStep, if_pos (hLabels.timely_of_few (by omega) l)]
  exact hStep

end Relaxed

section Runs

variable [DecidableEq ι] [DecidableEq α] {m : Relaxed c ι α} {labels : List (RelaxedLabel ι α)}

/-- In every timely run whose `Relaxed` and `Acquire` loads return values as old as they may,
`push`, `force_push` and `pop` are linearizable, a slot has at most one owner, its value is
written only where no live value is and taken only where one is, and the accesses to it do
not race. -/
theorem relaxed_loads_sound (hRun : (Relaxed.new c ι α).TimelyRun labels m) :
    Relaxed.Sound labels m :=
  hRun.sound

/-- Thread 1 pops after thread 0 has pushed, but reads first what was there before. -/
def oldPop : List (RelaxedLabel (Fin 2) ℕ) :=
  [.now (.call 0 (.push 1))] ++ List.replicate 5 (.now (.step 0 false)) ++
  [.now (.ret 0 .pushOk), .now (.call 1 .pop), .old 1 0, .old 1 0] ++
  List.replicate 6 (.now (.step 1 false)) ++ [.now (.ret 1 (.pop (some (some 1))))]

theorem relaxed_loads_sound_oldPop :
    Relaxed.Sound oldPop
      ((Runs.exec Relaxed.timelyStep (.new .one (Fin 2) ℕ) oldPop).get (by decide)) :=
  relaxed_loads_sound (Option.some_get _).symm

/-- With no assumption on timing, and however old the values are that the `Relaxed` and
`Acquire` loads return: every run with fewer than 2^(w-2) calls of push and force_push is
sound. -/
theorem early_relaxed_runs_sound
    (hRun : Runs.exec (Relaxed.step Pc.mayReadOld) (Relaxed.new c ι α) labels = some m)
    (hFew : (labels.filterMap RelaxedLabel.now?).countP Label.beginsPush < 2 ^ (c.w - 2)) :
    Relaxed.Sound labels m :=
  (Relaxed.exec_timely hRun hFew).sound

theorem early_relaxed_runs_sound_oldPop :
    Relaxed.Sound oldPop ((Runs.exec (Relaxed.step Pc.mayReadOld) (.new .one (Fin 2) ℕ) oldPop).get
      (by decide)) :=
  early_relaxed_runs_sound (Option.some_get _).symm (by decide)

end Runs

end NureQueue
