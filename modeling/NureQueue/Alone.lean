import NureQueue.Lib.Runs
import NureQueue.Queue

/-! # A call that runs alone

While one thread makes all the accesses, its call sees the memory change only by its own
hand, so the memory decides the call: whether it returns, with which result, and what it
leaves behind. This holds for every memory, also one that no run leads to.
-/

namespace NureQueue

universe u

variable {c : Config} {α : Type u}

/-- The accesses that begin a pass of a loop body, or of the body of a call without loop. -/
def Pc.begins : Pc c α → ℕ
  | .pushStamp .. | .popStamp _ | .emptyHead | .fullTail | .lenTail => 1
  | _ => 0

/-- The exchanges that have been told to fail, and have failed. -/
def Access.failures : Access → Bool → ℕ
  | .casHead false, true | .casTail false, true => 1
  | _, _ => 0

@[simp] theorem Access.failures_false (x : Access) : x.failures false = 0 := by
  cases x with
  | casHead won | casTail won => cases won <;> rfl
  | _ => rfl

/-- A call that runs alone, with the number of passes it has begun and the number of its
exchanges that have failed spuriously. -/
structure Alone (c : Config) (α : Type u) where
  queue : Queue c α
  pc : Pc c α
  passes : ℕ
  failures : ℕ

namespace Alone

def step (x : Alone c α) (spurious : Bool) : Alone c α :=
  match x.pc.step x.queue spurious with
  | some (a, q, p) => ⟨q, p, x.passes + x.pc.begins, x.failures + a.failures spurious⟩
  | none => x

/-- Accesses with a flag for each; the flags that are not given are false. -/
def run : ℕ → List Bool → Alone c α → Alone c α
  | 0, _, x => x
  | n + 1, flags, x => run n flags.tail (x.step (flags.headD false))

theorem run_add (n k : ℕ) (flags : List Bool) (x : Alone c α) :
    run (n + k) flags x = run k (flags.drop n) (run n flags x) := by
  induction n generalizing flags x with
  | zero => simp [run]
  | succ n ih =>
    rw [Nat.succ_add, run, ih, run, List.drop_tail]

@[simp] theorem run_done (n : ℕ) (flags : List Bool) (q : Queue c α) (r : Ret α) (a b : ℕ) :
    run n flags ⟨q, .done r, a, b⟩ = ⟨q, .done r, a, b⟩ := by
  induction n generalizing flags with
  | zero => rfl
  | succ n ih =>
    rw [run]
    exact ih flags.tail

theorem run_of_le {n k : ℕ} {flags : List Bool} {x : Alone c α} {q : Queue c α} {r : Ret α}
    {a b : ℕ} (hRun : run n flags x = ⟨q, .done r, a, b⟩) (hk : n ≤ k) :
    run k flags x = ⟨q, .done r, a, b⟩ := by
  obtain ⟨d, rfl⟩ := Nat.exists_eq_add_of_le hk
  rw [run_add, hRun, run_done]

/-- The call finishes, after one pass and one more for each spurious failure. -/
def Finishes (flags : List Bool) (x : Alone c α) (q : Queue c α) (r : Ret α) : Prop :=
  ∃ n k, run n flags x = ⟨q, .done r, x.passes + (1 + k), x.failures + k⟩

/-- Each pass either finishes the call or ends in a spurious failure and leads back to the
same point; so the call finishes, since the flags run out. -/
theorem finishes_of_pass {start : Pc c α} {q q' : Queue c α} {r : Ret α}
    (hPass : ∀ flags a b, (∃ n, run n flags ⟨q, start, a, b⟩ = ⟨q', .done r, a + 1, b⟩) ∨
      ∃ n, (flags.drop n).length < flags.length ∧
        run n flags ⟨q, start, a, b⟩ = ⟨q, start, a + 1, b + 1⟩)
    (flags : List Bool) (a b : ℕ) : Finishes flags ⟨q, start, a, b⟩ q' r := by
  induction hLength : flags.length using Nat.strong_induction_on generalizing flags a b with
  | _ size ih =>
    obtain ⟨n, hDone⟩ | ⟨n, hShorter, hAgain⟩ := hPass flags a b
    · exact ⟨n, 0, hDone⟩
    · obtain ⟨k, j, hRest⟩ := ih _ (hLength ▸ hShorter) (flags.drop n) (a + 1) (b + 1) rfl
      refine ⟨n + k, j + 1, ?_⟩
      rw [run_add, hAgain, hRest]
      simp only [Alone.mk.injEq, true_and]
      omega

theorem Finishes.of_first {flags : List Bool} {p p' : Pc c α} {q q' : Queue c α} {r : Ret α}
    {a b : ℕ} (hFirst : run 1 flags ⟨q, p, a, b⟩ = ⟨q, p', a, b⟩)
    (h : ∀ flags, Finishes flags ⟨q, p', a, b⟩ q' r) : Finishes flags ⟨q, p, a, b⟩ q' r := by
  obtain ⟨n, k, hRun⟩ := h (flags.drop 1)
  exact ⟨1 + n, k, by rw [run_add, hFirst, hRun]⟩

end Alone

namespace Queue

variable (q : Queue c α)

def PushFree : Prop := (q.buffer (c.index q.tail)).stamp = q.tail

/-- The slot at tail carries the stamp of the element a lap before, and head is there. -/
def PushFull : Prop :=
  (q.buffer (c.index q.tail)).stamp + c.oneLap = q.tail + 1 ∧ q.head + c.oneLap = q.tail

def PopReady : Prop := (q.buffer (c.index q.head)).stamp = q.head + 1

def PopEmpty : Prop := (q.buffer (c.index q.head)).stamp = q.head ∧ q.tail = q.head

def pushed (value : α) : Queue c α :=
  (({ q with tail := c.next q.tail }).setValue (c.index q.tail) (some value)).stampStore
    (c.index q.tail) (q.tail + 1)

def forced (value : α) : Queue c α :=
  (({ q with head := c.next q.tail - c.oneLap, tail := c.next q.tail }).setValue
    (c.index q.tail) (some value)).stampStore (c.index q.tail) (q.tail + 1)

def popped : Queue c α :=
  (({ q with head := c.next q.head }).setValue (c.index q.head) none).stampStore
    (c.index q.head) (q.head + c.oneLap)

end Queue

theorem Config.one_lt_L (c : Config) : 1 < c.L := by
  have hPos := c.pos
  have hN := c.N_lt_L
  omega

/-- A stamp is not both that of a free slot and that of the element a lap before. -/
theorem Config.stamp_ne (c : Config) {stamp tail : c.Index}
    (hLap : stamp + c.oneLap = tail + 1) : tail ≠ stamp := by
  rintro rfl
  have hOne : c.oneLap = 1 := (BitVec.add_right_inj _).mp hLap
  have hL := c.one_lt_L
  rw [Config.L, hOne, toNat_one c.w_pos] at hL
  exact lt_irrefl _ hL

namespace Alone

variable {q : Queue c α} {value : α} {flags : List Bool} {a b : ℕ}

theorem pushLoad_first (f : Closure) :
    run 1 flags ⟨q, .pushLoad f value, a, b⟩ = ⟨q, .pushStamp f value q.tail, a, b⟩ := rfl

theorem push_pass (h : q.PushFree) (f : Closure) :
    run 4 flags ⟨q, .pushStamp f value q.tail, a, b⟩ = ⟨q.pushed value, .done f.ok, a + 1, b⟩ ∨
    ((flags.drop 2).length < flags.length ∧
      run 2 flags ⟨q, .pushStamp f value q.tail, a, b⟩ =
        ⟨q, .pushStamp f value q.tail, a + 1, b + 1⟩) := by
  have hStamp : ∀ spurious, (⟨q, .pushStamp f value q.tail, a, b⟩ : Alone c α).step spurious =
      ⟨q, .pushCas f value q.tail, a + 1, b⟩ := by
    intro spurious
    have hFree : (q.buffer (c.index q.tail)).stamp = q.tail := h
    simp [step, Pc.step, hFree, Pc.begins, Access.failures]
  match flags with
  | _ :: true :: rest =>
    refine .inr ⟨by simp only [List.length_drop, List.length_cons]; omega, ?_⟩
    rw [run, hStamp]
    simp [run, step, Pc.step, Pc.begins, Access.failures]
  | [] | [_] | _ :: false :: _ =>
    refine .inl ?_
    rw [run, hStamp]
    simp [run, step, Pc.step, Pc.begins, Access.failures, Queue.pushed]

theorem pushFull_pass (h : q.PushFull) :
    run 2 flags ⟨q, .pushStamp .push value q.tail, a, b⟩ =
      ⟨q, .done (.pushErr value), a + 1, b⟩ := by
  have hNe := c.stamp_ne h.1
  simp [run, step, Pc.step, hNe, h.1, h.2, Closure.enter, Pc.begins, Access.failures]

theorem forcePush_pass (h : q.PushFull) :
    run 5 flags ⟨q, .pushStamp .forcePush value q.tail, a, b⟩ =
      ⟨q.forced value, .done (.forcePush (some (q.buffer (c.index q.tail)).value)), a + 1, b⟩ ∨
    ((flags.drop 3).length < flags.length ∧
      run 3 flags ⟨q, .pushStamp .forcePush value q.tail, a, b⟩ =
        ⟨q, .pushStamp .forcePush value q.tail, a + 1, b + 1⟩) := by
  have hNe := c.stamp_ne h.1
  have hHead : q.head = q.tail - c.oneLap := by rw [← h.2, BitVec.add_sub_cancel]
  have hStamp : ∀ spurious,
      (⟨q, .pushStamp .forcePush value q.tail, a, b⟩ : Alone c α).step spurious =
        ⟨q, .forceCas value q.tail, a + 1, b⟩ := by
    intro spurious
    simp [step, Pc.step, hNe, h.1, Closure.enter, Pc.begins, Access.failures]
  match flags with
  | _ :: true :: rest =>
    refine .inr ⟨by simp only [List.length_drop, List.length_cons]; omega, ?_⟩
    rw [run, hStamp]
    simp [run, step, Pc.step, Pc.begins, Access.failures]
  | [] | [_] | _ :: false :: _ =>
    refine .inl ?_
    rw [run, hStamp]
    simp [run, step, Pc.step, hHead, Pc.begins, Access.failures, Queue.forced]

theorem push_finishes (h : q.PushFree) (f : Closure) :
    Finishes flags ⟨q, .pushLoad f value, a, b⟩ (q.pushed value) f.ok := by
  apply Finishes.of_first (pushLoad_first f)
  intro flags
  apply finishes_of_pass
  intro flags a b
  exact (push_pass h f).imp (fun hDone => ⟨4, hDone⟩) (fun hAgain => ⟨2, hAgain⟩)

theorem pushFull_finishes (h : q.PushFull) :
    Finishes flags ⟨q, .pushLoad .push value, a, b⟩ q (.pushErr value) := by
  apply Finishes.of_first (pushLoad_first .push)
  intro flags
  exact ⟨2, 0, pushFull_pass h⟩

theorem forcePush_finishes (h : q.PushFull) :
    Finishes flags ⟨q, .pushLoad .forcePush value, a, b⟩ (q.forced value)
      (.forcePush (some (q.buffer (c.index q.tail)).value)) := by
  apply Finishes.of_first (pushLoad_first .forcePush)
  intro flags
  apply finishes_of_pass
  intro flags a b
  exact (forcePush_pass h).imp (fun hDone => ⟨5, hDone⟩) (fun hAgain => ⟨3, hAgain⟩)

theorem popLoad_first :
    run 1 flags ⟨q, .popLoad, a, b⟩ = ⟨q, .popStamp q.head, a, b⟩ := rfl

theorem pop_pass (h : q.PopReady) :
    run 4 flags ⟨q, .popStamp q.head, a, b⟩ =
      ⟨q.popped, .done (.pop (some (q.buffer (c.index q.head)).value)), a + 1, b⟩ ∨
    ((flags.drop 2).length < flags.length ∧
      run 2 flags ⟨q, .popStamp q.head, a, b⟩ = ⟨q, .popStamp q.head, a + 1, b + 1⟩) := by
  have hStamp : ∀ spurious, (⟨q, .popStamp q.head, a, b⟩ : Alone c α).step spurious =
      ⟨q, .popCas q.head, a + 1, b⟩ := by
    intro spurious
    have hReady : (q.buffer (c.index q.head)).stamp = q.head + 1 := h
    simp [step, Pc.step, hReady, Pc.begins, Access.failures]
  match flags with
  | _ :: true :: rest =>
    refine .inr ⟨by simp only [List.length_drop, List.length_cons]; omega, ?_⟩
    rw [run, hStamp]
    simp [run, step, Pc.step, Pc.begins, Access.failures]
  | [] | [_] | _ :: false :: _ =>
    refine .inl ?_
    rw [run, hStamp]
    simp [run, step, Pc.step, Pc.begins, Access.failures, Queue.popped]

theorem popEmpty_pass (h : q.PopEmpty) :
    run 2 flags ⟨q, .popStamp q.head, a, b⟩ = ⟨q, .done (.pop none), a + 1, b⟩ := by
  simp [run, step, Pc.step, h.1, h.2, c.w_pos.ne', Pc.begins, Access.failures]

theorem pop_finishes (h : q.PopReady) :
    Finishes flags ⟨q, .popLoad, a, b⟩ q.popped
      (.pop (some (q.buffer (c.index q.head)).value)) := by
  apply Finishes.of_first popLoad_first
  intro flags
  apply finishes_of_pass
  intro flags a b
  exact (pop_pass h).imp (fun hDone => ⟨4, hDone⟩) (fun hAgain => ⟨2, hAgain⟩)

theorem popEmpty_finishes (h : q.PopEmpty) :
    Finishes flags ⟨q, .popLoad, a, b⟩ q (.pop none) := by
  apply Finishes.of_first popLoad_first
  intro flags
  exact ⟨2, 0, popEmpty_pass h⟩

theorem isEmpty_finishes :
    Finishes flags ⟨q, .emptyHead, a, b⟩ q (.isEmpty (q.tail = q.head)) := ⟨2, 0, rfl⟩

theorem isFull_finishes :
    Finishes flags ⟨q, .fullTail, a, b⟩ q (.isFull (q.head + c.oneLap = q.tail)) := ⟨2, 0, rfl⟩

theorem len_finishes :
    Finishes flags ⟨q, .lenTail, a, b⟩ q (.len (c.lenOf q.head q.tail)) :=
  ⟨3, 0, by simp [run, step, Pc.step, Pc.begins, Access.failures]⟩

end Alone

/-- The call of an operation at the first access of a pass, with the word it has just read. -/
def Op.fresh (q : Queue c α) : Op α → Pc c α
  | .push value => .pushStamp .push value q.tail
  | .forcePush value => .pushStamp .forcePush value q.tail
  | .pop => .popStamp q.head
  | .isEmpty => .emptyHead
  | .isFull => .fullTail
  | .len => .lenTail

/-- The memory lets a pass of the operation come to an end. -/
def Queue.Decides (q : Queue c α) : Op α → Prop
  | .push _ | .forcePush _ => q.PushFree ∨ q.PushFull
  | .pop => q.PopReady ∨ q.PopEmpty
  | .isEmpty | .isFull | .len => True

/-- The points of a call that finds the memory undecided in each pass. -/
inductive Spins (q : Queue c α) : Op α → Pc c α → Prop
  | pushLoad (f : Closure) (value : α) : Spins q (f.op value) (.pushLoad f value)
  | pushStamp (f : Closure) (value : α) : Spins q (f.op value) (.pushStamp f value q.tail)
  | enter (f : Closure) (value : α)
      (hLap : (q.buffer (c.index q.tail)).stamp + c.oneLap = q.tail + 1) :
      Spins q (f.op value) (f.enter value q.tail)
  | popLoad : Spins q .pop .popLoad
  | popStamp : Spins q .pop (.popStamp q.head)
  | popTail (hStamp : (q.buffer (c.index q.head)).stamp = q.head) : Spins q .pop (.popTail q.head)

theorem Closure.decides_iff (f : Closure) (q : Queue c α) (value : α) :
    q.Decides (f.op value) ↔ q.PushFree ∨ q.PushFull := by
  cases f <;> exact Iff.rfl

section Returns

variable {q : Queue c α} {o : Op α} {p : Pc c α} {a b : ℕ}

theorem Spins.step (h : Spins q o p) (hBusy : ¬ q.Decides o) (spurious : Bool) :
    ∃ x p', p.step q spurious = some (x, q, p') ∧ Spins q o p' := by
  cases h with
  | pushLoad f value => exact ⟨_, _, rfl, .pushStamp f value⟩
  | pushStamp f value =>
    rw [f.decides_iff, not_or] at hBusy
    refine ⟨_, _, rfl, ?_⟩
    rw [if_neg (Ne.symm hBusy.1)]
    split
    · rename_i hLap
      exact .enter f value hLap
    · exact .pushLoad f value
  | enter f value hLap =>
    rw [f.decides_iff, not_or] at hBusy
    have hHead : q.head + c.oneLap ≠ q.tail := fun hHead => hBusy.2 ⟨hLap, hHead⟩
    cases f with
    | push =>
      refine ⟨_, _, rfl, ?_⟩
      rw [if_neg hHead]
      exact .pushLoad .push value
    | forcePush =>
      have hLost : q.head ≠ q.tail - c.oneLap := by
        intro hWon
        rw [hWon, BitVec.sub_add_cancel] at hHead
        exact hHead rfl
      simp only [Closure.enter, Pc.step, hLost, false_and, if_false]
      exact ⟨_, _, rfl, .pushLoad .forcePush value⟩
  | popLoad => exact ⟨_, _, rfl, .popStamp⟩
  | popStamp =>
    rw [Queue.Decides, not_or] at hBusy
    refine ⟨_, _, rfl, ?_⟩
    rw [if_neg (Ne.symm hBusy.1)]
    split
    · rename_i hStamp
      exact .popTail hStamp
    · exact .popLoad
  | popTail hStamp =>
    rw [Queue.Decides, not_or] at hBusy
    refine ⟨_, _, rfl, ?_⟩
    rw [if_neg fun hTail => hBusy.2 ⟨hStamp, hTail⟩]
    exact .popLoad

theorem Spins.not_done (h : Spins q o p) (r : Ret α) : p ≠ .done r := by
  rintro rfl
  generalize hp : (Pc.done r : Pc c α) = p at h
  cases h with
  | enter f => cases f <;> cases hp
  | _ => cases hp

namespace Alone

theorem run_spins (hBusy : ¬ q.Decides o) (n : ℕ) (flags : List Bool) {x : Alone c α}
    (hQueue : x.queue = q) (hSpins : Spins q o x.pc) :
    (run n flags x).queue = q ∧ Spins q o (run n flags x).pc := by
  induction n generalizing flags x with
  | zero => exact ⟨hQueue, hSpins⟩
  | succ n ih =>
    obtain ⟨y, p', hStep, hNext⟩ := hSpins.step hBusy (flags.headD false)
    rw [run]
    apply ih
    · rw [step, hQueue, hStep]
    · rw [step, hQueue, hStep]
      exact hNext

theorem fresh_spins (hBusy : ¬ q.Decides o) (n : ℕ) (flags : List Bool) (r : Ret α) :
    (run n flags ⟨q, o.fresh q, a, b⟩).pc ≠ .done r := by
  have hSpins : Spins q o (o.fresh q) := by
    cases o with
    | push value => exact .pushStamp .push value
    | forcePush value => exact .pushStamp .forcePush value
    | pop => exact .popStamp
    | isEmpty | isFull | len => exact absurd trivial hBusy
  exact (run_spins hBusy n flags rfl hSpins).2.not_done r

theorem fresh_returns (h : q.Decides o) :
    ∃ n ≤ 5, ∃ q' r, run n [] ⟨q, o.fresh q, a, b⟩ = ⟨q', .done r, a + 1, b⟩ := by
  have hNoFlags : ∀ k, ¬ (List.drop k ([] : List Bool)).length < ([] : List Bool).length :=
    fun _ => Nat.not_lt_zero _
  cases o with
  | push value =>
    obtain hFree | hFull := h
    · exact (push_pass hFree .push).elim (fun hDone => ⟨4, by decide, _, _, hDone⟩)
        fun hAgain => absurd hAgain.1 (hNoFlags 2)
    · exact ⟨2, by decide, _, _, pushFull_pass hFull⟩
  | forcePush value =>
    obtain hFree | hFull := h
    · exact (push_pass hFree .forcePush).elim (fun hDone => ⟨4, by decide, _, _, hDone⟩)
        fun hAgain => absurd hAgain.1 (hNoFlags 2)
    · exact (forcePush_pass hFull).elim (fun hDone => ⟨5, by decide, _, _, hDone⟩)
        fun hAgain => absurd hAgain.1 (hNoFlags 3)
  | pop =>
    obtain hReady | hEmpty := h
    · exact (pop_pass hReady).elim (fun hDone => ⟨4, by decide, _, _, hDone⟩)
        fun hAgain => absurd hAgain.1 (hNoFlags 2)
    · exact ⟨2, by decide, _, _, popEmpty_pass hEmpty⟩
  | isEmpty => exact ⟨2, by decide, _, _, rfl⟩
  | isFull => exact ⟨2, by decide, _, _, rfl⟩
  | len => exact ⟨3, by decide, q, .len (c.lenOf q.head q.tail), by
      simp [run, step, Pc.step, Op.fresh, Pc.begins, Access.failures]⟩

end Alone

end Returns

def System.alone {ι : Type*} (s : System c ι α) (t : ι) : Alone c α := ⟨s.queue, s.pc t, 0, 0⟩

/-- The accesses of `Alone.run` are steps of the system by this one thread. -/
theorem System.exec_alone {ι : Type*} [DecidableEq ι] [DecidableEq α] (s : System c ι α) (t : ι)
    (n a b : ℕ) : ∃ k ≤ n, Runs.exec System.step s (List.replicate k (.step t false)) =
      some ⟨(Alone.run n [] ⟨s.queue, s.pc t, a, b⟩).queue,
        Function.update s.pc t (Alone.run n [] ⟨s.queue, s.pc t, a, b⟩).pc⟩ := by
  induction n generalizing s a b with
  | zero => exact ⟨0, le_rfl, by simp [Alone.run]⟩
  | succ n ih =>
    rw [Alone.run]
    cases hStep : (s.pc t).step s.queue false with
    | none =>
      have hSame : Alone.step ⟨s.queue, s.pc t, a, b⟩ false = ⟨s.queue, s.pc t, a, b⟩ := by
        simp [Alone.step, hStep]
      obtain ⟨k, hk, hRun⟩ := ih s a b
      refine ⟨k, Nat.le_succ_of_le hk, ?_⟩
      rw [List.headD_nil, hSame]
      exact hRun
    | some y =>
      obtain ⟨x, q, p⟩ := y
      obtain ⟨k, hk, hRun⟩ := ih ⟨q, Function.update s.pc t p⟩ (a + (s.pc t).begins)
        (b + x.failures false)
      refine ⟨k + 1, Nat.succ_le_succ hk, ?_⟩
      rw [List.replicate_succ, Runs.exec_cons, System.step, hStep]
      simp only [Function.update_self, Function.update_idem] at hRun
      simpa [Alone.step, hStep] using hRun

end NureQueue
