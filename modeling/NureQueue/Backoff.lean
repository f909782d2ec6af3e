import NureQueue.Lib.Runs
import NureQueue.Queue

/-! # The backoff of the retry loops

`push_or_else` and `pop` pause each time before they go round their loop again. A pause
gives a number of spin hints, which grows with the pauses already made in the call, or, with
the `std` feature, yields past a threshold. The arithmetic is that of `u32`; none stands for
the panic of an overflow.
-/

namespace NureQueue

universe u v

inductive Pause where
  | spin
  | snooze
  deriving DecidableEq

inductive Wait where
  | spinLoop (n : ℕ)
  | yieldNow
  deriving DecidableEq

def Wait.hints : Wait → ℕ
  | .spinLoop n => n
  | .yieldNow => 0

def u32Add (a b : ℕ) : Option ℕ := if a + b < 2 ^ 32 then some (a + b) else none

def u32Shl (a n : ℕ) : Option ℕ := if n < 32 then some ((a <<< n) % 2 ^ 32) else none

structure Backoff where
  spins : ℕ
  deriving DecidableEq

namespace Backoff

def new : Backoff := ⟨0⟩

/-- The common body of `spin` and `snooze`, which differ in two bounds. -/
def wait (std : Bool) (most cap : ℕ) (b : Backoff) : Option (Wait × Backoff) :=
  if std = true ∧ b.spins > most then some (.yieldNow, b)
  else do
    let n ← u32Shl 1 (min b.spins most)
    let spins ← if b.spins < cap then u32Add b.spins 1 else some b.spins
    return (.spinLoop n, ⟨spins⟩)

def spin (std : Bool) (b : Backoff) : Option (Wait × Backoff) := b.wait std 6 8

def snooze (std : Bool) (b : Backoff) : Option (Wait × Backoff) := b.wait std 8 10

def pause (std : Bool) (b : Backoff) : Pause → Option (Wait × Backoff)
  | .spin => b.spin std
  | .snooze => b.snooze std

/-- What a backoff has reached in a call. The counter of a call that may yield stops earlier. -/
def Ok (std : Bool) (b : Backoff) : Prop := b.spins ≤ if std then 9 else 10

theorem new_ok (std : Bool) : new.Ok std := Nat.zero_le _

theorem u32Shl_one {n : ℕ} (h : n ≤ 8) : u32Shl 1 n = some (2 ^ n) := by
  have hPow : 2 ^ n ≤ 2 ^ 8 := Nat.pow_le_pow_right (by decide) h
  rw [u32Shl, if_pos (by omega), Nat.one_shiftLeft, Nat.mod_eq_of_lt (by omega)]

/-- No pause overflows. It spins at most 256 times; one that spins at a low counter raises
it, and with `std` no other spins at all. -/
theorem Ok.wait {std : Bool} {b : Backoff} (h : b.Ok std) {most cap : ℕ} (hMost : most ≤ 8)
    (hCap : cap = most + 2) :
    ∃ w b', b.wait std most cap = some (w, b') ∧ b'.Ok std ∧ w.hints ≤ 2 ^ 8 ∧
      (std = true → w = .yieldNow ∧ b' = b ∨
        w.hints = 2 ^ b.spins ∧ b'.spins = b.spins + 1) := by
  rw [Ok] at h
  rw [Backoff.wait, u32Shl_one ((Nat.min_le_right _ _).trans hMost)]
  have hPow : 2 ^ min b.spins most ≤ 2 ^ 8 :=
    Nat.pow_le_pow_right (by decide) ((Nat.min_le_right _ _).trans hMost)
  split_ifs with hYield hLow
  · exact ⟨_, _, rfl, h, Nat.zero_le _, fun _ => .inl ⟨rfl, rfl⟩⟩
  · have hSpins : b.spins ≤ 10 := by
      split at h <;> omega
    have hAdd : u32Add b.spins 1 = some (b.spins + 1) := by
      rw [u32Add, if_pos (by omega)]
    rw [hAdd]
    refine ⟨_, _, rfl, ?_, hPow, ?_⟩
    · rw [Ok]
      split_ifs with hStd
      · have hNot : ¬ b.spins > most := fun hGt => hYield ⟨hStd, hGt⟩
        simp only
        omega
      · simp only
        omega
    · intro hStd
      have hNot : ¬ b.spins > most := fun hGt => hYield ⟨hStd, hGt⟩
      refine .inr ⟨?_, rfl⟩
      rw [Wait.hints, Nat.min_eq_left (by omega)]
  · refine ⟨_, _, rfl, h, hPow, ?_⟩
    intro hStd
    exact absurd ⟨hStd, by omega⟩ hYield

theorem Ok.pause {std : Bool} {b : Backoff} (h : b.Ok std) (x : Pause) :
    ∃ w b', b.pause std x = some (w, b') ∧ b'.Ok std ∧ w.hints ≤ 2 ^ 8 ∧
      (std = true → w = .yieldNow ∧ b' = b ∨
        w.hints = 2 ^ b.spins ∧ b'.spins = b.spins + 1) := by
  cases x with
  | spin => exact h.wait (by decide) rfl
  | snooze => exact h.wait (by decide) rfl

end Backoff

variable {c : Config} {ι : Type v} {α : Type u}

/-- The pause that the loops of `push_or_else` and `pop` make on the way from one point to
another one. -/
def Pc.pause : Pc c α → Pc c α → Option Pause
  | .pushStamp .., .pushLoad .. => some .snooze
  | .pushCas .., .pushStamp .. => some .spin
  | .fullLoad .., .pushLoad .. => some .spin
  | .forceCas .., .pushLoad .. => some .spin
  | .popStamp _, .popLoad => some .snooze
  | .popCas _, .popStamp _ => some .spin
  | .popTail _, .popLoad => some .spin
  | _, _ => none

def System.pause? (s : System c ι α) : Label ι α → Option (ι × Pause)
  | .call _ _ | .ret _ _ => none
  | .step t spurious =>
    ((s.pc t).step s.queue spurious).bind fun x => ((s.pc t).pause x.2.2).map (t, ·)

/-- The system with the `backoff` local of each call. -/
structure Paced (c : Config) (ι : Type v) (α : Type u) extends System c ι α where
  backoff : ι → Backoff

/-- One for a call by one of the given threads. -/
def Label.calls (who : ι → Bool) : Label ι α → ℕ
  | .call t _ => if who t then 1 else 0
  | .step _ _ | .ret _ _ => 0

namespace System

def steps (who : ι → Bool) (kind : Queue c α → Bool → Pc c α → Access → Pc c α → Bool)
    (s : System c ι α) : Label ι α → ℕ
  | .call _ _ | .ret _ _ => 0
  | .step t spurious =>
    match (s.pc t).step s.queue spurious with
    | none => 0
    | some (a, _, p) => if who t && kind s.queue spurious (s.pc t) a p then 1 else 0

def pauses (who : ι → Bool) : System c ι α → Label ι α → ℕ :=
  steps who fun _ _ p _ p' => (p.pause p').isSome

end System

section Counters

variable [DecidableEq ι]

namespace Paced

def new (c : Config) (ι : Type v) (α : Type u) : Paced c ι α where
  toSystem := System.new c ι α
  backoff _ := .new

def backoffAfter (std : Bool) (s : Paced c ι α) : Label ι α → Option (ι → Backoff)
  | .call t _ => some (Function.update s.backoff t .new)
  | l =>
    match s.pause? l with
    | none => some s.backoff
    | some (t, x) =>
      ((s.backoff t).pause std x).map fun y => Function.update s.backoff t y.2

def step [DecidableEq α] (std : Bool) (s : Paced c ι α) (l : Label ι α) : Option (Paced c ι α) :=
  (s.toSystem.step l).bind fun s' => (s.backoffAfter std l).map fun b => ⟨s', b⟩

/-- The spin hints that thread t gives in a step. -/
def hints (std : Bool) (t : ι) (s : Paced c ι α) (l : Label ι α) : ℕ :=
  match s.pause? l with
  | none => 0
  | some (u, x) => if u = t then ((s.backoff u).pause std x).elim 0 (·.1.hints) else 0

end Paced

end Counters

/-- The hints that the present call of a thread may still give if it may yield. -/
def Pc.hintsLeft (b : Backoff) : Pc c α → ℕ
  | .idle | .done _ => 0
  | _ => 2 ^ 9 - 2 ^ b.spins

theorem Pc.hintsLeft_le (p : Pc c α) (b : Backoff) : p.hintsLeft b ≤ 2 ^ 9 - 2 ^ b.spins := by
  unfold hintsLeft
  split
  · exact Nat.zero_le _
  · exact Nat.zero_le _
  · exact Nat.le_refl _

theorem Pc.hintsLeft_of_step {p : Pc c α} {q : Queue c α} {spurious : Bool}
    {x : Access × Queue c α × Pc c α} (hStep : p.step q spurious = some x) (b : Backoff) :
    p.hintsLeft b = 2 ^ 9 - 2 ^ b.spins := by
  cases p with
  | idle | done => cases hStep
  | _ => rfl

section Runs

variable [DecidableEq ι]

/-- What the pause of thread u costs thread t, against the hints that its call has left. -/
theorem Backoff.Ok.pays {std : Bool} {backoff : ι → Backoff} (h : ∀ t, (backoff t).Ok std)
    (u t : ι) (x : Pause) :
    ∃ w b, (backoff u).pause std x = some (w, b) ∧
      (∀ t, (Function.update backoff u b t).Ok std) ∧ w.hints ≤ 2 ^ 8 ∧
      (std = true → (if u = t then w.hints else 0) +
        (2 ^ 9 - 2 ^ (Function.update backoff u b t).spins) ≤ 2 ^ 9 - 2 ^ (backoff t).spins) := by
  obtain ⟨w, b, hPause, hOk, hHints, hStd⟩ := (h u).pause x
  refine ⟨w, b, hPause, ?_, hHints, ?_⟩
  · exact (Function.forall_update_iff backoff fun _ b => b.Ok std).mpr ⟨hOk, fun t _ => h t⟩
  · intro hYes
    obtain rfl | hne := eq_or_ne u t
    · rw [if_pos rfl, Function.update_self]
      obtain ⟨rfl, rfl⟩ | ⟨hCost, hSpins⟩ := hStd hYes
      · exact Nat.le_of_eq (Nat.zero_add _)
      · rw [Ok, if_pos hYes, hSpins] at hOk
        have hPow : 2 ^ (b.spins) ≤ 2 ^ 9 := Nat.pow_le_pow_right (by decide) (hSpins ▸ hOk)
        rw [hSpins, Nat.pow_succ] at hPow
        rw [hCost, hSpins, Nat.pow_succ]
        omega
    · rw [if_neg hne, Function.update_of_ne (Ne.symm hne), Nat.zero_add]

variable [DecidableEq α]

theorem Paced.step_pays {std : Bool} {s : Paced c ι α} (h : ∀ t, (s.backoff t).Ok std)
    {l : Label ι α} {s' : System c ι α} (hStep : s.toSystem.step l = some s') (t : ι) :
    ∃ b, Paced.step std s l = some ⟨s', b⟩ ∧ (∀ t, (b t).Ok std) ∧
      s.hints std t l ≤ 2 ^ 8 * s.pauses (fun u => u = t) l ∧
      (std = true → s.hints std t l + (s'.pc t).hintsLeft (b t) ≤
        (2 ^ 9 - 1) * l.calls (fun u => u = t) + (s.pc t).hintsLeft (s.backoff t)) := by
  rw [Paced.step, hStep, Option.bind_some]
  cases l with
  | call u op =>
    refine ⟨_, rfl, ?_, Nat.zero_le _, ?_⟩
    · exact (Function.forall_update_iff s.backoff fun _ b => b.Ok std).mpr
        ⟨Backoff.new_ok std, fun t _ => h t⟩
    · intro _
      rw [System.step] at hStep
      split_ifs at hStep
      cases hStep
      change 0 + _ ≤ _
      obtain rfl | hne := eq_or_ne u t
      · simp only [Function.update_self, Label.calls, decide_true, if_true]
        have hLeft := (op.start : Pc c α).hintsLeft_le .new
        change _ ≤ 2 ^ 9 - 1 at hLeft
        omega
      · simp only [Function.update_of_ne (Ne.symm hne)]
        omega
  | ret u r =>
    refine ⟨_, rfl, h, Nat.zero_le _, ?_⟩
    intro _
    rw [System.step] at hStep
    split_ifs at hStep
    cases hStep
    change 0 + _ ≤ _
    obtain rfl | hne := eq_or_ne u t
    · simp only [Function.update_self, Pc.hintsLeft]
      omega
    · simp only [Function.update_of_ne (Ne.symm hne)]
      omega
  | step u spurious =>
    obtain ⟨⟨a, q, p⟩, hAccess, hNew⟩ := Option.map_eq_some_iff.mp hStep
    replace hNew : s' = ⟨q, Function.update s.pc u p⟩ := hNew.symm
    subst hNew
    have hPoint : ∀ b, (Function.update s.pc u p t).hintsLeft b ≤ 2 ^ 9 - 2 ^ b.spins :=
      Pc.hintsLeft_le _
    have hBefore : u = t → (s.pc t).hintsLeft (s.backoff t) = 2 ^ 9 - 2 ^ (s.backoff t).spins := by
      rintro rfl
      exact Pc.hintsLeft_of_step hAccess _
    cases hPause : (s.pc u).pause p with
    | none =>
      have hNone : s.pause? (.step u spurious) = none := by
        simp [System.pause?, hAccess, hPause]
      refine ⟨s.backoff, by simp [backoffAfter, hNone], h, by simp [hints, hNone], ?_⟩
      intro _
      have hCost : s.hints std t (.step u spurious) = 0 := by simp [hints, hNone]
      change _ + (Function.update s.pc u p t).hintsLeft _ ≤ _
      obtain rfl | hne := eq_or_ne u t
      · have hAfter := hPoint (s.backoff u)
        rw [hCost, hBefore rfl]
        omega
      · rw [hCost, Function.update_of_ne (Ne.symm hne)]
        omega
    | some x =>
      have hSome : s.pause? (.step u spurious) = some (u, x) := by
        simp [System.pause?, hAccess, hPause]
      obtain ⟨w, b, hWait, hOk, hMost, hStd⟩ := Backoff.Ok.pays h u t x
      have hCost : s.hints std t (.step u spurious) = if u = t then w.hints else 0 := by
        simp [hints, hSome, hWait]
      have hCount : s.pauses (fun u => u = t) (.step u spurious) = if u = t then 1 else 0 := by
        simp [System.pauses, System.steps, hAccess, hPause]
      refine ⟨Function.update s.backoff u b, by simp [backoffAfter, hSome, hWait], hOk, ?_, ?_⟩
      · rw [hCost, hCount]
        split_ifs <;> omega
      · intro hYes
        have hPays := hStd hYes
        change _ + (Function.update s.pc u p t).hintsLeft _ ≤ _
        rw [← hCost] at hPays
        obtain rfl | hne := eq_or_ne u t
        · have hAfter := hPoint (Function.update s.backoff u b u)
          rw [hBefore rfl]
          omega
        · rw [hCost, if_neg hne, Function.update_of_ne (Ne.symm hne),
            Function.update_of_ne (Ne.symm hne)]
          omega

theorem Paced.toSystem_step {std : Bool} {s s' : Paced c ι α} {l : Label ι α}
    (hStep : Paced.step std s l = some s') : s.toSystem.step l = some s'.toSystem := by
  obtain ⟨s₁, hFirst, hRest⟩ := Option.bind_eq_some_iff.mp hStep
  obtain ⟨b, -, rfl⟩ := Option.map_eq_some_iff.mp hRest
  exact hFirst

theorem Paced.step_ok {std : Bool} {s s' : Paced c ι α} (h : ∀ t, (s.backoff t).Ok std)
    {l : Label ι α} (hStep : Paced.step std s l = some s') (t : ι) :
    (∀ t, (s'.backoff t).Ok std) ∧ s.hints std t l ≤ 2 ^ 8 * s.pauses (fun u => u = t) l ∧
      (std = true → s.hints std t l + (s'.pc t).hintsLeft (s'.backoff t) ≤
        (2 ^ 9 - 1) * l.calls (fun u => u = t) + (s.pc t).hintsLeft (s.backoff t)) := by
  obtain ⟨b, hNew, hOk, hMost, hStd⟩ := step_pays h (toSystem_step hStep) t
  have hSame : s'.backoff = b := congrArg backoff (Option.some.inj (hStep.symm.trans hNew))
  subst hSame
  exact ⟨hOk, hMost, hStd⟩

theorem Paced.exec_of_system (std : Bool) {s : System c ι α} {labels : List (Label ι α)}
    (hRun : Runs.exec System.step (System.new c ι α) labels = some s) (t : ι) :
    ∃ b, Runs.exec (Paced.step std) (Paced.new c ι α) labels = some ⟨s, b⟩ := by
  have hOk : ∃ b, Runs.exec (Paced.step std) (Paced.new c ι α) labels = some ⟨s, b⟩ ∧
      ∀ t, (b t).Ok std := by
    refine Runs.exec_induction (P := fun labels s => ∃ b,
      Runs.exec (Paced.step std) (Paced.new c ι α) labels = some ⟨s, b⟩ ∧ ∀ t, (b t).Ok std)
      ⟨fun _ => .new, rfl, fun _ => Backoff.new_ok std⟩ ?_ labels s hRun
    rintro labels s l s' - ⟨b, hPaced, hOk⟩ hStep
    obtain ⟨b', hNew, hOk', -⟩ := step_pays (s := ⟨s, b⟩) hOk hStep t
    exact ⟨b', Runs.exec_snoc_eq_some.mpr ⟨_, hPaced, hNew⟩, hOk'⟩
  obtain ⟨b, hPaced, -⟩ := hOk
  exact ⟨b, hPaced⟩

/-- In every run, whatever it does, no pause overflows and each gives at most 2^8 hints. With
`std` a call gives less than 2^9 hints in all, however often it goes round its loop. -/
theorem backoff_bounded (std : Bool) {s : System c ι α} {labels : List (Label ι α)}
    (hRun : Runs.exec System.step (System.new c ι α) labels = some s) (t : ι) :
    (∃ b, Runs.exec (Paced.step std) (Paced.new c ι α) labels = some ⟨s, b⟩) ∧
    Runs.total (Paced.step std) (Paced.hints std t) (.new c ι α) labels ≤
      2 ^ 8 * Runs.total System.step (System.pauses fun u => u = t) (.new c ι α) labels ∧
    (std = true → Runs.total (Paced.step std) (Paced.hints std t) (.new c ι α) labels ≤
      (2 ^ 9 - 1) *
        Runs.total System.step (fun _ => Label.calls fun u => u = t) (.new c ι α) labels) := by
  obtain ⟨b, hPaced⟩ := Paced.exec_of_system std hRun t
  have hMap := fun cost : System c ι α → Label ι α → ℕ =>
    Runs.total_map Paced.toSystem cost (fun _ _ _ => Paced.toSystem_step) hPaced
  refine ⟨⟨b, hPaced⟩, ?_, ?_⟩
  · obtain ⟨-, -, hSum⟩ := Runs.total_potential
      (R := fun (s : Paced c ι α) (_ : Unit) => ∀ t, (s.backoff t).Ok std) (Paced.hints std t)
      (fun s l => 2 ^ 8 * s.pauses (fun u => u = t) l) (fun _ _ => 0) (a := ())
      (fun s _ l s' hOk hStep => by
        obtain ⟨hOk', hMost, -⟩ := Paced.step_ok hOk hStep t
        exact ⟨(), hOk', hMost⟩) (fun _ => Backoff.new_ok std) hPaced
    rw [Runs.total_const_mul, hMap (System.pauses fun u => u = t)] at hSum
    exact hSum
  · intro hYes
    obtain ⟨-, -, hSum⟩ := Runs.total_potential
      (R := fun (s : Paced c ι α) (_ : Unit) => ∀ t, (s.backoff t).Ok std) (Paced.hints std t)
      (fun _ l => (2 ^ 9 - 1) * l.calls fun u => u = t)
      (fun s _ => (s.pc t).hintsLeft (s.backoff t)) (a := ())
      (fun s _ l s' hOk hStep => by
        obtain ⟨hOk', -, hPays⟩ := Paced.step_ok hOk hStep t
        exact ⟨(), hOk', hPays hYes⟩) (fun _ => Backoff.new_ok std) hPaced
    rw [Runs.total_const_mul, hMap fun _ => Label.calls fun u => u = t] at hSum
    exact (Nat.le_add_right _ _).trans hSum

/-- Thread 1 waits for a value that thread 0 has claimed a slot for and not written yet. -/
def waitingPop : List (Label (Fin 2) ℕ) :=
  Label.call 0 (.push 1) :: (List.replicate 3 (Label.step 0 false) ++
  Label.call 1 .pop :: List.replicate 9 (Label.step 1 false))

theorem backoff_bounded_waitingPop :
    Runs.total (Paced.step true) (Paced.hints true 1) (.new .one (Fin 2) ℕ) waitingPop ≤
      (2 ^ 9 - 1) *
        Runs.total System.step (fun _ => Label.calls fun u => u = 1) (.new .one (Fin 2) ℕ)
          waitingPop :=
  (backoff_bounded true (s := (Runs.exec System.step (.new .one (Fin 2) ℕ) waitingPop).get
    (by decide)) (Option.some_get _).symm 1).2.2 rfl

example : Runs.total (Paced.step true) (Paced.hints true 1) (.new .one (Fin 2) ℕ) waitingPop =
    1 + 2 + 4 := by decide

end Runs

end NureQueue
