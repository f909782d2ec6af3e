import NureQueue.Lib.Runs
import NureQueue.Queue

/-! # Runs in which no index word is used when it is too old

The monitor watches the system and counts the moves of head and tail; for each thread
it notes the count at which the index word in the thread's locals was loaded. No step
of the system depends on it. A timely run is one in which no thread compares, or
compares and exchanges, such a word after K/2 or more further moves of that index.
-/

namespace NureQueue

universe u v

variable {c : Config} {ι : Type v} {α : Type u}

inductive Word where
  | head
  | tail
  deriving DecidableEq

def Access.moves : Access → Word → ℕ
  | .casHead true, .head => 1
  | .casTail true, .tail => 1
  | .storeTail, .tail => 1
  | _, _ => 0

theorem Access.moves_le_one (a : Access) (x : Word) : a.moves x ≤ 1 := by
  unfold Access.moves
  split <;> decide

theorem Op.start_ne_done (op : Op α) (x : Ret α) : op.start ≠ (.done x : Pc c α) := by
  cases op <;> nofun

namespace Pc

/-- The index whose word the step into this point has just loaded. -/
def loaded : Pc c α → Option Word
  | .pushStamp .. | .fullHead .. | .lenHead .. => some .tail
  | .popStamp .. | .emptyTail .. => some .head
  | _ => none

/-- The index whose word, held in a local, the next access is used to judge. -/
def uses : Pc c α → Option Word
  | .pushStamp .. | .pushCas .. | .fullLoad .. | .forceCas .. | .fullHead .. | .lenCheck .. =>
    some .tail
  | .popStamp .. | .popCas .. | .popTail .. | .emptyTail .. => some .head
  | _ => none

end Pc

structure Monitored (c : Config) (ι : Type v) (α : Type u) extends System c ι α where
  moves : Word → ℕ
  seen : ι → ℕ

namespace Monitored

def new (c : Config) (ι : Type v) (α : Type u) : Monitored c ι α where
  toSystem := System.new c ι α
  moves _ := 0
  seen _ := 0

/-- The note for thread t once it has come to the point p. -/
def note (m : Monitored c ι α) (t : ι) (p : Pc c α) : ℕ :=
  match p.loaded with
  | some x => m.moves x
  | none => m.seen t

def Timely (m : Monitored c ι α) (t : ι) : Prop :=
  ∀ x, (m.pc t).uses = some x → m.moves x < m.seen t + c.K / 2

instance (m : Monitored c ι α) (t : ι) : Decidable (m.Timely t) :=
  match h : (m.pc t).uses with
  | none => isTrue fun x hx => by cases h.symm.trans hx
  | some x => decidable_of_iff (m.moves x < m.seen t + c.K / 2)
      ⟨fun hx y hy => by cases h.symm.trans hy; exact hx, fun hx => hx x h⟩

variable [DecidableEq ι]

/-- The state after an access by thread t. -/
def access (m : Monitored c ι α) (t : ι) (a : Access) (q : Queue c α) (p : Pc c α) :
    Monitored c ι α where
  queue := q
  pc := Function.update m.pc t p
  moves x := m.moves x + a.moves x
  seen := Function.update m.seen t (m.note t p)

variable [DecidableEq α]

def step (m : Monitored c ι α) : Label ι α → Option (Monitored c ι α)
  | .step t spurious =>
    ((m.pc t).step m.queue spurious).map fun (a, q, p) => m.access t a q p
  | l => (m.toSystem.step l).map fun s => { m with toSystem := s }

def timelyStep (m : Monitored c ι α) : Label ι α → Option (Monitored c ι α)
  | .step t spurious => if m.Timely t then m.step (.step t spurious) else none
  | l => m.step l

def TimelyRun (m : Monitored c ι α) (labels : List (Label ι α)) (m' : Monitored c ι α) : Prop :=
  Runs.exec timelyStep m labels = some m'

def Reachable (m : Monitored c ι α) : Prop :=
  ∃ labels, TimelyRun (new c ι α) labels m

/-- What one label of a timely run can do. -/
theorem timelyStep_cases {m m' : Monitored c ι α} {l : Label ι α}
    (hStep : m.timelyStep l = some m') :
    (∃ t op, l = .call t op ∧ m.pc t = .idle ∧
      m' = { m with pc := Function.update m.pc t op.start }) ∨
    (∃ t spurious a q p, l = .step t spurious ∧ m.Timely t ∧
      (m.pc t).step m.queue spurious = some (a, q, p) ∧ m' = m.access t a q p) ∨
    (∃ t r, l = .ret t r ∧ m.pc t = .done r ∧
      m' = { m with pc := Function.update m.pc t .idle }) := by
  cases l with
  | call t op =>
    refine .inl ⟨t, op, rfl, ?_⟩
    simp only [timelyStep, step, System.step] at hStep
    split at hStep
    · rename_i hIdle
      exact ⟨hIdle, (Option.some.inj hStep).symm⟩
    · cases hStep
  | step t spurious =>
    simp only [timelyStep, step] at hStep
    split at hStep
    · rename_i hTimely
      obtain ⟨⟨a, q, p⟩, hAccess, hEq⟩ := Option.map_eq_some_iff.mp hStep
      exact .inr (.inl ⟨t, spurious, a, q, p, rfl, hTimely, hAccess, hEq.symm⟩)
    · cases hStep
  | ret t r =>
    refine .inr (.inr ⟨t, r, rfl, ?_⟩)
    simp only [timelyStep, step, System.step] at hStep
    split at hStep
    · rename_i hDone
      exact ⟨hDone, (Option.some.inj hStep).symm⟩
    · cases hStep

theorem timelyStep_moves {m m' : Monitored c ι α} {l : Label ι α}
    (hStep : m.timelyStep l = some m') (x : Word) :
    m.moves x ≤ m'.moves x ∧ m'.moves x ≤ m.moves x + 1 := by
  obtain ⟨t, op, rfl, -, rfl⟩ |
    ⟨t, spurious, a, q, p, rfl, -, -, rfl⟩ | ⟨t, y, rfl, -, rfl⟩ := timelyStep_cases hStep
  · exact ⟨le_rfl, Nat.le_succ _⟩
  · exact ⟨Nat.le_add_right .., Nat.add_le_add_left (a.moves_le_one x) _⟩
  · exact ⟨le_rfl, Nat.le_succ _⟩

theorem TimelyRun.moves_le {m m' : Monitored c ι α} {labels : List (Label ι α)}
    (hRun : m.TimelyRun labels m') (x : Word) : m.moves x ≤ m'.moves x :=
  Runs.exec_invariant (P := fun m' => m.moves x ≤ m'.moves x)
    (fun _ _ _ hLe hStep => hLe.trans (timelyStep_moves hStep x).1) hRun le_rfl

theorem done_of_ret {m m' : Monitored c ι α} {t : ι} {x : Ret α}
    (hStep : m.timelyStep (.ret t x) = some m') : m.pc t = .done x := by
  obtain ⟨_, _, hl, -⟩ | ⟨_, _, _, _, _, hl, -⟩ | ⟨_, _, hl, hDone, -⟩ := timelyStep_cases hStep
  · cases hl
  · cases hl
  · cases hl
    exact hDone

theorem timelyStep_toSystem {m m' : Monitored c ι α} {l : Label ι α}
    (hStep : m.timelyStep l = some m') : m.toSystem.step l = some m'.toSystem := by
  obtain ⟨t, op, rfl, hPc, rfl⟩ |
    ⟨t, spurious, a, q, p, rfl, -, hAccess, rfl⟩ | ⟨t, r, rfl, hPc, rfl⟩ := timelyStep_cases hStep
  · simp [System.step, hPc]
  · simp [System.step, hAccess, access]
  · simp [System.step, hPc]

theorem TimelyRun.toSystem {m m' : Monitored c ι α} {labels : List (Label ι α)}
    (hRun : TimelyRun m labels m') :
    Runs.exec System.step m.toSystem labels = some m'.toSystem :=
  Runs.exec_map Monitored.toSystem (fun _ _ _ hStep => timelyStep_toSystem hStep) hRun

/-- A thread that stands at a point with a note got there by a step of its own, unless it is
a point where calls begin or end. -/
theorem TimelyRun.entered {m₀ m : Monitored c ι α} {labels : List (Label ι α)}
    (hRun : m₀.TimelyRun labels m) {t : ι} {p : Pc c α} (hStart : ∀ op : Op α, op.start ≠ p)
    (hIdle : .idle ≠ p) (hFirst : m₀.pc t ≠ p) (hLast : m.pc t = p) :
    ∃ before spurious after m₁ a q, labels = before ++ .step t spurious :: after ∧
      m₀.TimelyRun before m₁ ∧ m₁.Timely t ∧
      (m₁.pc t).step m₁.queue spurious = some (a, q, p) ∧ m₁.note t p = m.seen t ∧
      (m₁.access t a q p).TimelyRun after m := by
  obtain ⟨before, l, after, m₁, m₂, rfl, hBefore, hNot, hStep, hThere, hAfter⟩ :=
    Runs.exec_first_change (P := fun m' : Monitored c ι α => ¬ (m'.pc t = p ∧ m'.seen t = m.seen t))
      hRun (fun h => hFirst h.1) (not_not_intro ⟨hLast, rfl⟩)
  rw [not_not] at hThere
  obtain ⟨hPc, hSeen⟩ := hThere
  obtain ⟨u, op, rfl, hu, rfl⟩ |
    ⟨u, spurious, a, q, p', rfl, hTimely, hAccess, rfl⟩ | ⟨u, y, rfl, hu, rfl⟩ :=
      timelyStep_cases hStep
  · obtain rfl | hne := eq_or_ne t u
    · exact absurd ((Function.update_self ..).symm.trans hPc) (hStart op)
    · exact absurd ⟨(Function.update_of_ne hne ..).symm.trans hPc, hSeen⟩ hNot
  · obtain rfl | hne := eq_or_ne t u
    · cases (Function.update_self ..).symm.trans hPc
      exact ⟨before, spurious, after, m₁, a, q, rfl, hBefore, hTimely, hAccess,
        (Function.update_self ..).symm.trans hSeen, hAfter⟩
    · exact absurd ⟨(Function.update_of_ne hne ..).symm.trans hPc,
        (Function.update_of_ne hne ..).symm.trans hSeen⟩ hNot
  · obtain rfl | hne := eq_or_ne t u
    · exact absurd ((Function.update_self ..).symm.trans hPc) hIdle
    · exact absurd ⟨(Function.update_of_ne hne ..).symm.trans hPc, hSeen⟩ hNot

/-- A return in a run is preceded by the step in which its call got the result. -/
theorem TimelyRun.step_of_ret {m₀ m : Monitored c ι α} {labels : List (Label ι α)}
    (hRun : m₀.TimelyRun labels m) (hQuiet : ∀ t, m₀.pc t = .idle) {t : ι} {x : Ret α}
    (hRet : .ret t x ∈ labels) :
    ∃ before spurious m₁ a q, before ++ [.step t spurious] <+: labels ∧
      m₀.TimelyRun before m₁ ∧ m₁.Timely t ∧
      (m₁.pc t).step m₁.queue spurious = some (a, q, .done x) := by
  obtain ⟨first, rest, rfl⟩ := List.append_of_mem hRet
  obtain ⟨m₂, hFirst, hRest⟩ := Runs.exec_append_eq_some.mp hRun
  obtain ⟨m₃, hStep, -⟩ := Runs.exec_cons_eq_some.mp hRest
  obtain ⟨before, spurious, after, m₁, a, q, rfl, hBefore, hTimely, hAccess, -, -⟩ :=
    TimelyRun.entered hFirst (Op.start_ne_done · x) nofun (by rw [hQuiet]; nofun)
      (done_of_ret hStep)
  refine ⟨before, spurious, m₁, a, q, ?_, hBefore, hTimely, hAccess⟩
  exact ⟨after ++ .ret t x :: rest, by simp⟩

end Monitored

end NureQueue
