import Mathlib.Algebra.BigOperators.Group.Finset.Piecewise
import Mathlib.Algebra.BigOperators.Ring.Finset
import Mathlib.Algebra.Order.BigOperators.Group.Finset
import NureQueue.Rounds

/-! # What the calls of a run cost

Every access of a call is paid for by the calls of the run, by spurious failures and by the
rounds spent on owned slots. If no owner of a slot is passed over for long, these rounds are
paid for by the owners, and a long run has to contain returns.
-/

namespace NureQueue

universe u v

variable {c : Config} {ι : Type v} {α : Type u}

namespace Pc

/-- The accesses to the end of the call if it goes into no further round. -/
def rank : Pc c α → ℕ
  | .pushLoad .. => 6
  | .pushStamp .. | .popLoad => 5
  | .fullLoad .. | .forceCas .. | .popStamp _ => 4
  | .pushCas .. | .forceStore .. | .popCas _ | .popTail _ | .lenTail => 3
  | .pushWrite .. | .forceReplace .. | .popRead _ | .emptyHead | .fullTail | .lenHead _ => 2
  | .pushPublish .. | .forcePublish .. | .popPublish .. | .emptyTail _ | .fullHead _
  | .lenCheck .. => 1
  | .idle | .done _ => 0

/-- The steps forward that the call may still make. -/
def stepsForward : Pc c α → ℕ
  | .pushLoad .. | .pushStamp .. | .pushCas .. | .fullLoad .. | .forceCas .. => 3
  | .forceStore .. | .popLoad | .popStamp _ | .popCas _ | .popTail _ => 2
  | .pushWrite .. | .pushPublish .. | .forceReplace .. | .forcePublish .. | .popRead _
  | .popPublish .. => 1
  | _ => 0

/-- The accesses that the call may still make as the owner of a slot. -/
def ownedLeft : Pc c α → ℕ
  | .pushLoad .. | .pushStamp .. | .pushCas .. | .fullLoad .. | .forceCas .. | .forceStore .. => 3
  | .pushWrite .. | .forceReplace .. | .popLoad | .popStamp _ | .popCas _ | .popTail _
  | .popRead _ => 2
  | .pushPublish .. | .forcePublish .. | .popPublish .. => 1
  | _ => 0

def free : Pc c α → ℕ
  | .idle => 1
  | _ => 0

variable {p p' : Pc c α} {q q' : Queue c α} {spurious : Bool} {a : Access}

theorem rank_step (hStep : p.step q spurious = some (a, q', p')) :
    1 + p'.rank ≤ 3 * (if p.again p' then 1 else 0) + p.rank := by
  cases edge hStep <;> exact Nat.le_of_ble_eq_true rfl

theorem stepsForward_step (hStep : p.step q spurious = some (a, q', p')) :
    (if a.progresses then 1 else 0) + p'.stepsForward ≤ p.stepsForward := by
  cases edge hStep <;> exact Nat.le_of_ble_eq_true rfl

theorem ownedLeft_step (hStep : p.step q spurious = some (a, q', p')) :
    (if p.owns.isSome then 1 else 0) + p'.ownedLeft ≤ p.ownedLeft := by
  cases edge hStep <;> exact Nat.le_of_ble_eq_true rfl

theorem free_step (hStep : p.step q spurious = some (a, q', p')) : p'.free ≤ p.free := by
  cases edge hStep <;> exact Nat.le_of_ble_eq_true rfl

theorem rank_start (op : Op α) : (op.start : Pc c α).rank ≤ 6 := by
  cases op <;> exact Nat.le_of_ble_eq_true rfl

theorem stepsForward_start (op : Op α) : (op.start : Pc c α).stepsForward ≤ 3 := by
  cases op <;> exact Nat.le_of_ble_eq_true rfl

theorem ownedLeft_start (op : Op α) : (op.start : Pc c α).ownedLeft ≤ 3 := by
  cases op <;> exact Nat.le_of_ble_eq_true rfl

theorem free_start (op : Op α) : (op.start : Pc c α).free = 0 := by
  cases op <;> rfl

end Pc

def System.ownedSteps (who : ι → Bool) : System c ι α → Label ι α → ℕ :=
  steps who fun _ _ p _ _ => p.owns.isSome

section Totals

variable [DecidableEq ι] [DecidableEq α] {s s' : System c ι α}

omit [DecidableEq α] in
theorem System.steps_of_ne {t : ι} {l : Label ι α} (h : l.thread ≠ t)
    (kind : Queue c α → Bool → Pc c α → Access → Pc c α → Bool) :
    s.steps (fun u => u = t) kind l = 0 := by
  cases l with
  | call | ret => rfl
  | step u spurious =>
    have hne : u ≠ t := h
    unfold steps
    simp only [hne, decide_false, Bool.false_and, Bool.false_eq_true, if_false]
    split <;> rfl

/-- A rank of the points of a call that falls with each step of one kind, unless the step is
of another kind, bounds the number of the former. -/
theorem System.total_le_of_rank (rank : Pc c α → ℕ) {n k : ℕ}
    (cost credit : Queue c α → Bool → Pc c α → Access → Pc c α → Bool)
    (hStep : ∀ q spurious p a q' p', p.step q spurious = some (a, q', p') →
      (if cost q spurious p a p' then 1 else 0) + rank p' ≤
        k * (if credit q spurious p a p' then 1 else 0) + rank p)
    (hStart : ∀ op : Op α, rank op.start ≤ n) (hIdle : rank .idle = 0) {labels : List (Label ι α)}
    (hRun : Runs.exec System.step (System.new c ι α) labels = some s) (t : ι) :
    Runs.total System.step (steps (fun u => u = t) cost) (.new c ι α) labels ≤
      n * Runs.total System.step (fun _ => Label.calls fun u => u = t) (.new c ι α) labels +
      k * Runs.total System.step (steps (fun u => u = t) credit) (.new c ι α) labels := by
  obtain ⟨-, -, hSum⟩ := Runs.total_potential (R := fun _ (_ : Unit) => True)
    (steps (fun u => u = t) cost) (fun (s : System c ι α) l =>
      n * l.calls (fun u => u = t) + k * s.steps (fun u => u = t) credit l)
    (fun s _ => rank (s.pc t)) (a := ()) (fun s _ l s' _ hLabel => by
      refine ⟨(), trivial, ?_⟩
      obtain ⟨hOther, hSame⟩ | ⟨op, rfl, -, hAfter⟩ | ⟨x, rfl, -, hAfter⟩ |
        ⟨spurious, a, q, rfl, hAccess⟩ := System.step_thread hLabel t
      · rw [steps_of_ne hOther, hSame, Nat.zero_add]
        exact Nat.le_add_left _ _
      · have hFirst := hStart op
        rw [hAfter]
        simp only [Label.calls, steps, decide_true, if_true]
        omega
      · rw [hAfter, hIdle]
        exact Nat.zero_le _
      · have hOwn := hStep _ _ _ _ _ _ hAccess
        rw [steps_eq hAccess, steps_eq hAccess]
        simp only [decide_true, Bool.true_and]
        omega) trivial hRun
  rw [Runs.total_add, Runs.total_const_mul, Runs.total_const_mul] at hSum
  have hZero : rank ((System.new c ι α).pc t) = 0 := hIdle
  omega

def Label.returns (who : ι → Bool) : Label ι α → ℕ
  | .ret t _ => if who t then 1 else 0
  | .call _ _ | .step _ _ => 0

omit [DecidableEq α] in
theorem System.steps_eq_sum (who : ι → Bool)
    (kind : Queue c α → Bool → Pc c α → Access → Pc c α → Bool) (s : System c ι α)
    {threads : Finset ι} {l : Label ι α} (hl : l.thread ∈ threads) :
    s.steps who kind l = ∑ u ∈ threads with who u, s.steps (fun v => v = u) kind l := by
  cases l with
  | call | ret => simp [steps]
  | step t spurious =>
    change t ∈ threads at hl
    cases hAccess : (s.pc t).step s.queue spurious with
    | none => simp [steps, hAccess]
    | some x =>
      obtain ⟨a, q, p⟩ := x
      simp only [steps_eq hAccess]
      cases kind s.queue spurious (s.pc t) a p <;> cases hWho : who t <;> simp [hl, hWho]

omit [DecidableEq α] in
theorem Label.calls_eq_sum (who : ι → Bool) {threads : Finset ι} {l : Label ι α}
    (hl : l.thread ∈ threads) :
    l.calls who = ∑ u ∈ threads with who u, l.calls fun v => v = u := by
  cases l with
  | step | ret => simp [calls]
  | call t op =>
    change t ∈ threads at hl
    cases hWho : who t <;> simp [calls, hl, hWho]

omit [DecidableEq α] in
theorem Label.returns_eq_sum (who : ι → Bool) {threads : Finset ι} {l : Label ι α}
    (hl : l.thread ∈ threads) :
    l.returns who = ∑ u ∈ threads with who u, l.returns fun v => v = u := by
  cases l with
  | call | step => simp [returns]
  | ret t r =>
    change t ∈ threads at hl
    cases hWho : who t <;> simp [returns, hl, hWho]

/-- A rank that each step of one kind lowers and no other raises bounds the number of steps of
this kind for each call, over any threads. -/
theorem System.steps_le_calls (rank : Pc c α → ℕ) {n : ℕ}
    (kind : Queue c α → Bool → Pc c α → Access → Pc c α → Bool)
    (hStep : ∀ q spurious p a q' p', p.step q spurious = some (a, q', p') →
      (if kind q spurious p a p' then 1 else 0) + rank p' ≤ rank p)
    (hStart : ∀ op : Op α, rank op.start ≤ n) (hIdle : rank .idle = 0) {labels : List (Label ι α)}
    (hRun : Runs.exec System.step (System.new c ι α) labels = some s) (who : ι → Bool) :
    Runs.total System.step (steps who kind) (.new c ι α) labels ≤
      n * Runs.total System.step (fun _ => Label.calls who) (.new c ι α) labels := by
  have hThreads : ∀ l ∈ labels, l.thread ∈ (labels.map Label.thread).toFinset := by
    intro l hl
    rw [List.mem_toFinset]
    exact List.mem_map_of_mem hl
  have hOne : ∀ t : ι, Runs.total System.step (steps (fun u => u = t) kind) (.new c ι α) labels ≤
      n * Runs.total System.step (fun _ => Label.calls fun u => u = t) (.new c ι α) labels := by
    intro t
    have hSum := System.total_le_of_rank (k := 0) rank kind (fun _ _ _ _ _ => false)
      (fun q spurious p a q' p' hAccess => by
        have hLeft := hStep q spurious p a q' p' hAccess
        omega) hStart hIdle hRun t
    rw [Nat.zero_mul, Nat.add_zero] at hSum
    exact hSum
  calc Runs.total System.step (steps who kind) (.new c ι α) labels
      = ∑ u ∈ (labels.map Label.thread).toFinset with who u,
          Runs.total System.step (steps (fun v => v = u) kind) (.new c ι α) labels := by
        rw [← Runs.total_sum]
        exact Runs.total_congr (fun s l hl => steps_eq_sum who _ s (hThreads l hl)) _
    _ ≤ ∑ u ∈ (labels.map Label.thread).toFinset with who u,
          n * Runs.total System.step (fun _ => Label.calls fun v => v = u) (.new c ι α) labels :=
        Finset.sum_le_sum fun u _ => hOne u
    _ = n * Runs.total System.step (fun _ => Label.calls who) (.new c ι α) labels := by
        rw [← Finset.mul_sum, ← Runs.total_sum]
        congr 1
        exact Runs.total_congr (fun s l hl => (Label.calls_eq_sum who (hThreads l hl)).symm) _

theorem System.progress_le {labels : List (Label ι α)}
    (hRun : Runs.exec System.step (System.new c ι α) labels = some s) (who : ι → Bool) :
    Runs.total System.step (progress who) (.new c ι α) labels ≤
      3 * Runs.total System.step (fun _ => Label.calls who) (.new c ι α) labels :=
  System.steps_le_calls Pc.stepsForward (fun _ _ _ a _ => a.progresses)
    (fun _ _ _ _ _ _ => Pc.stepsForward_step) Pc.stepsForward_start rfl hRun who

theorem System.ownedSteps_le {labels : List (Label ι α)}
    (hRun : Runs.exec System.step (System.new c ι α) labels = some s) (who : ι → Bool) :
    Runs.total System.step (ownedSteps who) (.new c ι α) labels ≤
      3 * Runs.total System.step (fun _ => Label.calls who) (.new c ι α) labels :=
  System.steps_le_calls Pc.ownedLeft (fun _ _ p _ _ => p.owns.isSome)
    (fun _ _ _ _ _ _ => Pc.ownedLeft_step) Pc.ownedLeft_start rfl hRun who

theorem Monitored.TimelyRun.accesses_le {m : Monitored c ι α} {labels : List (Label ι α)}
    (hRun : (Monitored.new c ι α).TimelyRun labels m) (t : ι) :
    Runs.total System.step (System.accesses fun u => u = t) (.new c ι α) labels ≤
      6 * Runs.total System.step (fun _ => Label.calls fun u => u = t) (.new c ι α) labels +
      3 * (Runs.total System.step (System.spuriousFailures fun u => u = t) (.new c ι α) labels +
        Runs.total System.step (System.waits t) (.new c ι α) labels +
        Runs.total System.step (System.progress fun u => u ≠ t) (.new c ι α) labels) := by
  have hRounds := hRun.rounds_le t
  have hAccesses := System.total_le_of_rank (n := 6) (k := 3) Pc.rank
    (fun _ _ _ _ _ => true) (fun _ _ p _ p' => p.again p')
    (fun _ _ _ _ _ _ hStep => Pc.rank_step hStep) Pc.rank_start rfl hRun.toSystem t
  change Runs.total System.step (System.accesses fun u => u = t) (.new c ι α) labels ≤
    6 * _ + 3 * Runs.total System.step (System.rounds fun u => u = t) (.new c ι α) labels
    at hAccesses
  omega

/-- What a timely run costs a thread in accesses: a bounded number for each of its calls, for
each call of another thread, for each spurious failure and for each round that it spends on a
slot that another call owns. -/
theorem accesses_bounded {m : Monitored c ι α} {labels : List (Label ι α)}
    (hRun : (Monitored.new c ι α).TimelyRun labels m) (t : ι) :
    Runs.total System.step (System.accesses fun u => u = t) (.new c ι α) labels ≤
      6 * Runs.total System.step (fun _ => Label.calls fun u => u = t) (.new c ι α) labels +
      9 * Runs.total System.step (fun _ => Label.calls fun u => u ≠ t) (.new c ι α) labels +
      3 * (Runs.total System.step (System.spuriousFailures fun u => u = t) (.new c ι α) labels +
        Runs.total System.step (System.waits t) (.new c ι α) labels) := by
  have hAccesses := hRun.accesses_le t
  have hProgress := System.progress_le hRun.toSystem fun u => u ≠ t
  omega

theorem accesses_bounded_waitingPop :
    Runs.total System.step (System.accesses fun u => u = 1) (.new .one (Fin 2) ℕ) waitingPop ≤
      6 * Runs.total System.step (fun _ => Label.calls fun u => u = 1) (.new .one (Fin 2) ℕ)
        waitingPop +
      9 * Runs.total System.step (fun _ => Label.calls fun u => u ≠ 1) (.new .one (Fin 2) ℕ)
        waitingPop +
      3 * (Runs.total System.step (System.spuriousFailures fun u => u = 1) (.new .one (Fin 2) ℕ)
          waitingPop +
        Runs.total System.step (System.waits 1) (.new .one (Fin 2) ℕ) waitingPop) :=
  accesses_bounded
    (m := (Runs.exec Monitored.timelyStep (.new .one (Fin 2) ℕ) waitingPop).get (by decide))
    (Option.some_get _).symm 1

/-- Whoever owns a slot makes an access within the next B labels, if so many follow. -/
def OwnersMove (B : ℕ) : System c ι α → List (Label ι α) → Prop :=
  Runs.Throughout System.step fun s labels => B ≤ labels.length →
    ∀ u, (s.pc u).owns.isSome → ∃ spurious, .step u spurious ∈ labels.take B

instance decidableOwnersMove [Fintype ι] (B : ℕ) (s : System c ι α) (labels : List (Label ι α)) :
    Decidable (OwnersMove B s labels) :=
  inferInstanceAs (Decidable (Runs.Throughout _ _ s labels))

omit [DecidableEq ι] [DecidableEq α] in
theorem System.steps_le_one (who : ι → Bool)
    (kind : Queue c α → Bool → Pc c α → Access → Pc c α → Bool) (s : System c ι α)
    (l : Label ι α) : s.steps who kind l ≤ 1 := by
  unfold steps
  split
  · exact Nat.zero_le _
  · exact Nat.zero_le _
  · split
    · exact Nat.zero_le _
    · split_ifs <;> decide

/-- The owner of a slot that moves within a window makes its first access there as an owner. -/
theorem System.ownedSteps_pos (who : ι → Bool) {u : ι} (hWho : who u = true)
    {window : List (Label ι α)} (hRun : Runs.exec System.step s window = some s')
    (hOwns : (s.pc u).owns.isSome) {spurious : Bool} (hMem : .step u spurious ∈ window) :
    0 < Runs.total System.step (ownedSteps who) s window := by
  induction window generalizing s with
  | nil => cases hMem
  | cons l window ih =>
    obtain ⟨s₁, hFirst, hRest⟩ := Runs.exec_cons_eq_some.mp hRun
    rw [Runs.total_cons hFirst]
    obtain ⟨hOther, hSame⟩ | ⟨op, -, hIdle, -⟩ | ⟨x, -, hDone, -⟩ | ⟨spurious, a, q, rfl, hAccess⟩ :=
      System.step_thread hFirst u
    · refine Nat.add_pos_right _ (ih hRest (by rwa [hSame]) ?_)
      obtain rfl | hLater := List.mem_cons.mp hMem
      · exact absurd rfl hOther
      · exact hLater
    · rw [hIdle] at hOwns
      cases hOwns
    · rw [hDone] at hOwns
      cases hOwns
    · refine Nat.add_pos_left ?_ _
      rw [ownedSteps, steps_eq hAccess, hWho, hOwns]
      exact Nat.one_pos

/-- The rounds that a thread spends on owned slots are paid for by the owners. -/
theorem System.waits_le {B : ℕ} {labels : List (Label ι α)}
    (hRun : Runs.exec System.step (System.new c ι α) labels = some s)
    (hMoves : OwnersMove B (.new c ι α) labels) (t : ι) :
    Runs.total System.step (waits t) (.new c ι α) labels ≤
      B * (3 * Runs.total System.step (fun _ => Label.calls fun u => u ≠ t) (.new c ι α) labels +
        1) := by
  have hOwned := System.ownedSteps_le hRun fun u => u ≠ t
  refine (Runs.total_windows (waits t) (ownedSteps fun u => u ≠ t) ?_ ?_ hRun hMoves).trans
    (Nat.mul_le_mul_left B (Nat.add_le_add_right hOwned 1))
  · intro s l
    rw [waits]
    split_ifs
    · exact steps_le_one ..
    · exact Nat.zero_le 1
  · intro s l labels s' hNow hRun' hCost hLong
    have hWaits : s.Waits t := by
      by_contra hFree
      exact hCost (if_neg hFree)
    obtain ⟨i, u, hne, -, hOwns⟩ := hWaits
    have hOwner : (s.pc u).owns.isSome := by rw [hOwns]; rfl
    obtain ⟨spurious, hMem⟩ := hNow hLong u hOwner
    rw [← List.take_append_drop B (l :: labels)] at hRun'
    obtain ⟨s₁, hWindow, -⟩ := Runs.exec_append_eq_some.mp hRun'
    exact System.ownedSteps_pos (fun u => u ≠ t) (decide_eq_true hne) hWindow hOwner hMem

theorem System.delays_le {B : ℕ} {labels : List (Label ι α)}
    (hRun : Runs.exec System.step (System.new c ι α) labels = some s)
    (hMoves : OwnersMove B (.new c ι α) labels) (t : ι) :
    Runs.total System.step (waits t) (.new c ι α) labels +
      Runs.total System.step (progress fun u => u ≠ t) (.new c ι α) labels ≤
    3 * ((B + 1) *
      Runs.total System.step (fun _ => Label.calls fun u => u ≠ t) (.new c ι α) labels) + B := by
  have hWaits := System.waits_le hRun hMoves t
  have hProgress := System.progress_le hRun fun u => u ≠ t
  rw [Nat.mul_add, Nat.mul_left_comm, Nat.mul_one] at hWaits
  rw [Nat.add_mul, Nat.one_mul]
  omega

/-- What a timely run costs a thread in accesses if the owners of slots keep moving: a bounded
number for each of its calls, for each call of another thread and for each spurious failure. -/
theorem accesses_bounded_of_ownersMove {m : Monitored c ι α} {labels : List (Label ι α)}
    (hRun : (Monitored.new c ι α).TimelyRun labels m) {B : ℕ}
    (hMoves : OwnersMove B (.new c ι α) labels) (t : ι) :
    Runs.total System.step (System.accesses fun u => u = t) (.new c ι α) labels ≤
      6 * Runs.total System.step (fun _ => Label.calls fun u => u = t) (.new c ι α) labels +
      9 * (B + 1) *
        Runs.total System.step (fun _ => Label.calls fun u => u ≠ t) (.new c ι α) labels +
      3 * (Runs.total System.step (System.spuriousFailures fun u => u = t) (.new c ι α) labels +
        B) := by
  have hAccesses := hRun.accesses_le t
  have hDelays := System.delays_le hRun.toSystem hMoves t
  rw [Nat.mul_assoc 9]
  omega

/-- Thread 1 waits for a value, thread 0 writes it, and both calls return. -/
def servedPop : List (Label (Fin 2) ℕ) :=
  waitingPop ++ Label.step 0 false :: Label.step 0 false :: Label.ret 0 .pushOk ::
    (List.replicate 5 (Label.step 1 false) ++ [Label.ret 1 (.pop (some (some 1)))])

theorem accesses_bounded_of_ownersMove_servedPop :
    Runs.total System.step (System.accesses fun u => u = 1) (.new .one (Fin 2) ℕ) servedPop ≤
      6 * Runs.total System.step (fun _ => Label.calls fun u => u = 1) (.new .one (Fin 2) ℕ)
        servedPop +
      9 * (11 + 1) *
        Runs.total System.step (fun _ => Label.calls fun u => u ≠ 1) (.new .one (Fin 2) ℕ)
          servedPop +
      3 * (Runs.total System.step (System.spuriousFailures fun u => u = 1) (.new .one (Fin 2) ℕ)
        servedPop + 11) :=
  accesses_bounded_of_ownersMove
    (m := (Runs.exec Monitored.timelyStep (.new .one (Fin 2) ℕ) servedPop).get (by decide))
    (Option.some_get _).symm (by decide) 1

omit [DecidableEq α] in
theorem Label.calls_of_ne {t : ι} {l : Label ι α} (h : l.thread ≠ t) :
    (l.calls fun u => u = t) = 0 := by
  cases l with
  | step | ret => rfl
  | call u op => exact if_neg fun hSame => h (of_decide_eq_true hSame)

theorem System.calls_le_returns {labels : List (Label ι α)}
    (hRun : Runs.exec System.step (System.new c ι α) labels = some s) (t : ι) :
    Runs.total System.step (fun _ => Label.calls fun u => u = t) (.new c ι α) labels ≤
      Runs.total System.step (fun _ => Label.returns fun u => u = t) (.new c ι α) labels + 1 := by
  obtain ⟨-, -, hSum⟩ := Runs.total_potential (R := fun _ (_ : Unit) => True)
    (fun (_ : System c ι α) => Label.calls fun u => u = t)
    (fun _ => Label.returns fun u => u = t) (fun s _ => (s.pc t).free) (a := ())
    (fun s _ l s' _ hLabel => by
      refine ⟨(), trivial, ?_⟩
      obtain ⟨hOther, hSame⟩ | ⟨op, rfl, hIdle, hAfter⟩ | ⟨x, rfl, -, hAfter⟩ |
        ⟨spurious, a, q, rfl, hAccess⟩ := System.step_thread hLabel t
      · rw [Label.calls_of_ne hOther, hSame, Nat.zero_add]
        exact Nat.le_add_left _ _
      · rw [hAfter, hIdle, Pc.free_start]
        simp [Label.calls, Pc.free]
      · rw [hAfter]
        simp [Label.calls, Label.returns, Pc.free]
      · simpa [Label.calls, Label.returns] using Pc.free_step hAccess) trivial hRun
  exact (Nat.le_add_right _ _).trans hSum

theorem System.total_calls_add (t : ι) (labels : List (Label ι α)) :
    Runs.total System.step (fun _ => Label.calls fun u => u = t) (.new c ι α) labels +
      Runs.total System.step (fun _ => Label.calls fun u => u ≠ t) (.new c ι α) labels =
    Runs.total System.step (fun _ => Label.calls fun _ => true) (.new c ι α) labels := by
  rw [← Runs.total_add]
  refine Runs.total_congr ?_ _
  rintro - l -
  cases l with
  | step | ret => rfl
  | call u op =>
    obtain rfl | hne := eq_or_ne u t
    · simp [Label.calls]
    · simp [Label.calls, hne]

theorem System.total_threads {threads : Finset ι} {labels : List (Label ι α)}
    (hThreads : ∀ l ∈ labels, l.thread ∈ threads)
    (count : (ι → Bool) → System c ι α → Label ι α → ℕ)
    (hCount : ∀ who s l, l.thread ∈ threads →
      count who s l = ∑ u ∈ threads with who u, count (fun v => v = u) s l) :
    ∑ u ∈ threads, Runs.total System.step (count fun v => v = u) (.new c ι α) labels =
      Runs.total System.step (count fun _ => true) (.new c ι α) labels := by
  rw [← Runs.total_sum]
  refine Runs.total_congr (fun s l hl => ?_) _
  rw [hCount _ s l (hThreads l hl), Finset.filter_true_of_mem fun _ _ => rfl]

theorem System.total_labels {labels : List (Label ι α)}
    (hRun : Runs.exec System.step (System.new c ι α) labels = some s) :
    Runs.total System.step (accesses fun _ => true) (.new c ι α) labels +
      Runs.total System.step (fun _ => Label.calls fun _ => true) (.new c ι α) labels +
      Runs.total System.step (fun _ => Label.returns fun _ => true) (.new c ι α) labels =
        labels.length := by
  rw [← Runs.total_add, ← Runs.total_add]
  refine Runs.total_eq_length ?_ hRun
  intro s l s' hStep
  cases l with
  | call | ret => rfl
  | step t spurious =>
    obtain ⟨⟨a, q, p⟩, hAccess, -⟩ := Option.map_eq_some_iff.mp hStep
    rw [accesses, steps_eq hAccess]
    rfl

/-- System-wide progress. If the owners of slots keep moving, then a timely run of finitely
many threads has no more labels than a bounded number for each return, for each thread and
for each spurious failure: whatever the threads do, calls return. -/
theorem long_runs_return {m : Monitored c ι α} {labels : List (Label ι α)}
    (hRun : (Monitored.new c ι α).TimelyRun labels m) {B : ℕ}
    (hMoves : OwnersMove B (.new c ι α) labels) {threads : Finset ι}
    (hThreads : ∀ l ∈ labels, l.thread ∈ threads) :
    labels.length ≤
      (9 * threads.card * (B + 1) + 2) *
        (Runs.total System.step (fun _ => Label.returns fun _ => true) (.new c ι α) labels +
          threads.card) +
      3 * (Runs.total System.step (System.spuriousFailures fun _ => true) (.new c ι α) labels +
        B * threads.card) := by
  have hSystem := hRun.toSystem
  have hLabels := System.total_labels hSystem
  have hCalls : Runs.total System.step (fun _ => Label.calls fun _ => true) (.new c ι α) labels ≤
      Runs.total System.step (fun _ => Label.returns fun _ => true) (.new c ι α) labels +
        threads.card := by
    rw [← System.total_threads hThreads (fun who _ => Label.calls who)
        fun who _ _ => Label.calls_eq_sum who,
      ← System.total_threads hThreads (fun who _ => Label.returns who)
        fun who _ _ => Label.returns_eq_sum who,
      Finset.card_eq_sum_ones, ← Finset.sum_add_distrib]
    exact Finset.sum_le_sum fun u _ => System.calls_le_returns hSystem u
  have hAccesses : Runs.total System.step (System.accesses fun _ => true) (.new c ι α) labels ≤
      threads.card * (9 * (B + 1) * Runs.total System.step (fun _ => Label.calls fun _ => true)
        (.new c ι α) labels + 3 * B) +
      3 * Runs.total System.step (System.spuriousFailures fun _ => true) (.new c ι α) labels := by
    have hOne : ∀ t ∈ threads,
        Runs.total System.step (System.accesses fun u => u = t) (.new c ι α) labels ≤
        9 * (B + 1) * Runs.total System.step (fun _ => Label.calls fun _ => true)
          (.new c ι α) labels + 3 * B +
        3 * Runs.total System.step (System.spuriousFailures fun u => u = t) (.new c ι α) labels := by
      intro t _
      have hAccess := hRun.accesses_le t
      have hDelays := System.delays_le hSystem hMoves t
      have hOwn := Nat.le_mul_of_pos_left (Runs.total System.step
        (fun _ => Label.calls fun u => u = t) (.new c ι α) labels) (show 0 < B + 1 by omega)
      rw [← System.total_calls_add t, Nat.mul_assoc 9, Nat.mul_add (B + 1)]
      omega
    rw [← System.total_threads hThreads System.accesses
        fun who s _ => System.steps_eq_sum who _ s,
      ← System.total_threads hThreads System.spuriousFailures
        fun who s _ => System.steps_eq_sum who _ s]
    refine (Finset.sum_le_sum hOne).trans_eq ?_
    rw [Finset.sum_add_distrib, Finset.sum_const_nat fun _ _ => rfl, Finset.mul_sum]
  have hMany := Nat.mul_le_mul_left (9 * threads.card * (B + 1)) hCalls
  rw [Nat.mul_add threads.card, ← Nat.mul_assoc threads.card, ← Nat.mul_assoc threads.card,
    Nat.mul_comm threads.card 9, Nat.mul_left_comm threads.card 3, Nat.mul_comm threads.card B]
    at hAccesses
  rw [Nat.add_mul (9 * threads.card * (B + 1))]
  omega

theorem long_runs_return_servedPop :
    servedPop.length ≤
      (9 * (Finset.univ : Finset (Fin 2)).card * (11 + 1) + 2) *
        (Runs.total System.step (fun _ => Label.returns fun _ => true) (.new .one (Fin 2) ℕ)
          servedPop + (Finset.univ : Finset (Fin 2)).card) +
      3 * (Runs.total System.step (System.spuriousFailures fun _ => true) (.new .one (Fin 2) ℕ)
        servedPop + 11 * (Finset.univ : Finset (Fin 2)).card) :=
  long_runs_return
    (m := (Runs.exec Monitored.timelyStep (.new .one (Fin 2) ℕ) servedPop).get (by decide))
    (Option.some_get _).symm (by decide) fun _ _ => Finset.mem_univ _

end Totals

end NureQueue
