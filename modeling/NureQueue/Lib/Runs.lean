import Mathlib.Algebra.BigOperators.Group.Finset.Basic
import Mathlib.Data.List.Induction
import Mathlib.Data.Option.Basic

/-! # Finite runs of a deterministic labelled machine

A machine is a partial step function: `none` means that the label is not enabled.
Everything that happens by choice (which thread moves, which call it makes) is in
the labels, so a list of labels determines the run and each of its states. The labels of a
run, what it shows and what it leaves behind are lists that grow at their end.
-/

namespace Runs

universe u v w x

section Growth

variable {ε : Type w} {xs ys : List ε} {x y : ε} {i : ℕ}

theorem lt_length_of_getElem? (h : xs[i]? = some x) : i < xs.length :=
  (List.getElem?_eq_some_iff.mp h).1

theorem getElem?_mono (hPrefix : xs <+: ys) (h : xs[i]? = some x) : ys[i]? = some x := by
  obtain ⟨hi, rfl⟩ := List.getElem?_eq_some_iff.mp h
  exact List.prefix_iff_getElem?.mp hPrefix i hi

theorem getElem?_snoc (h : xs[i]? = some x) : (xs ++ [y])[i]? = some x :=
  getElem?_mono (List.prefix_append xs [y]) h

theorem getElem?_snoc_cases (h : (xs ++ [y])[i]? = some x) :
    xs[i]? = some x ∨ (i = xs.length ∧ x = y) := by
  obtain hlt | hge := Nat.lt_or_ge i xs.length
  · rw [List.getElem?_append_left hlt] at h
    exact .inl h
  · rw [List.getElem?_append_right hge, List.getElem?_singleton] at h
    split at h
    · exact .inr ⟨by omega, (Option.some.inj h).symm⟩
    · cases h

end Growth

variable {σ : Type u} {ℓ : Type v}

/-- The state after the labels, in order; `none` once a label is not enabled. -/
def exec (step : σ → ℓ → Option σ) (s : σ) (labels : List ℓ) : Option σ :=
  labels.foldlM step s

variable {step : σ → ℓ → Option σ}

@[simp] theorem exec_nil (s : σ) : exec step s [] = some s := rfl

theorem exec_cons (s : σ) (l : ℓ) (labels : List ℓ) :
    exec step s (l :: labels) = (step s l).bind fun t => exec step t labels := rfl

@[simp] theorem exec_singleton (s : σ) (l : ℓ) : exec step s [l] = step s l := by
  rw [exec_cons]
  cases step s l <;> rfl

theorem exec_append (s : σ) (first second : List ℓ) :
    exec step s (first ++ second) = (exec step s first).bind fun t => exec step t second :=
  List.foldlM_append

theorem exec_append_eq_some {s u : σ} {first second : List ℓ} :
    exec step s (first ++ second) = some u ↔
      ∃ t, exec step s first = some t ∧ exec step t second = some u := by
  rw [exec_append, Option.bind_eq_some_iff]

theorem exec_suffix {s t u : σ} {first second : List ℓ}
    (hRun : exec step s (first ++ second) = some u) (hFirst : exec step s first = some t) :
    exec step t second = some u := by
  rwa [exec_append, hFirst] at hRun

theorem exec_cons_eq_some {s u : σ} {l : ℓ} {labels : List ℓ} :
    exec step s (l :: labels) = some u ↔ ∃ t, step s l = some t ∧ exec step t labels = some u := by
  rw [exec_cons, Option.bind_eq_some_iff]

theorem exec_snoc_eq_some {s u : σ} {l : ℓ} {labels : List ℓ} :
    exec step s (labels ++ [l]) = some u ↔
      ∃ t, exec step s labels = some t ∧ step t l = some u := by
  simp only [exec_append_eq_some, exec_singleton]

theorem exec_induction {s : σ} {P : List ℓ → σ → Prop} (hStart : P [] s)
    (hStep : ∀ labels t l u, exec step s labels = some t → P labels t → step t l = some u →
      P (labels ++ [l]) u)
    (labels : List ℓ) : ∀ t, exec step s labels = some t → P labels t := by
  induction labels using List.reverseRecOn with
  | nil =>
    intro t hRun
    cases hRun
    exact hStart
  | append_singleton labels l ih =>
    intro u hRun
    obtain ⟨t, hLabels, hLast⟩ := exec_snoc_eq_some.mp hRun
    exact hStep labels t l u hLabels (ih t hLabels) hLast

/-- An invariant of the steps whose labels are of a certain kind. -/
theorem exec_invariant_of {P : σ → Prop} {Q : ℓ → Prop}
    (hStep : ∀ s l t, P s → Q l → step s l = some t → P t) {s t : σ} {labels : List ℓ}
    (hRun : exec step s labels = some t) (hLabels : ∀ l ∈ labels, Q l) (hStart : P s) : P t := by
  induction labels generalizing s with
  | nil =>
    cases hRun
    exact hStart
  | cons l labels ih =>
    obtain ⟨u, hFirst, hRest⟩ := exec_cons_eq_some.mp hRun
    obtain ⟨hLabel, hOthers⟩ := List.forall_mem_cons.mp hLabels
    exact ih hRest hOthers (hStep s l u hStart hLabel hFirst)

theorem exec_invariant {P : σ → Prop} (hStep : ∀ s l t, P s → step s l = some t → P t)
    {s t : σ} {labels : List ℓ} (hRun : exec step s labels = some t) (hStart : P s) : P t :=
  exec_invariant_of (Q := fun _ => True) (fun s l t hs _ => hStep s l t hs) hRun
    (fun _ _ => trivial) hStart

/-- The first step of a run that leaves a property, together with the runs around it. -/
theorem exec_first_change {P : σ → Prop} {s u : σ} {labels : List ℓ}
    (hRun : exec step s labels = some u) (hStart : P s) (hEnd : ¬ P u) :
    ∃ before l after t t', labels = before ++ l :: after ∧ exec step s before = some t ∧
      P t ∧ step t l = some t' ∧ ¬ P t' ∧ exec step t' after = some u := by
  induction labels generalizing s with
  | nil =>
    cases hRun
    exact absurd hStart hEnd
  | cons l labels ih =>
    obtain ⟨t, hFirst, hRest⟩ := exec_cons_eq_some.mp hRun
    by_cases hKept : P t
    · obtain ⟨before, l', after, a, b, rfl, hBefore, ha, hStep, hb, hAfter⟩ := ih hRest hKept
      exact ⟨l :: before, l', after, a, b, rfl,
        exec_cons_eq_some.mpr ⟨t, hFirst, hBefore⟩, ha, hStep, hb, hAfter⟩
    · exact ⟨[], l, labels, s, t, rfl, rfl, hStart, hFirst, hKept, hRest⟩

/-- A property that only another one can end holds at the end of a run, or the other has
held on the way. -/
theorem exec_until {P Q : σ → Prop} (hStep : ∀ s l t, P s → step s l = some t → P t ∨ Q t)
    {s u : σ} {labels : List ℓ} (hRun : exec step s labels = some u) (hStart : P s) :
    P u ∨ ∃ before after t, labels = before ++ after ∧ exec step s before = some t ∧ Q t := by
  induction labels generalizing s with
  | nil =>
    cases hRun
    exact .inl hStart
  | cons l labels ih =>
    obtain ⟨t, hFirst, hRest⟩ := exec_cons_eq_some.mp hRun
    obtain hKept | hEnded := hStep s l t hStart hFirst
    · obtain hEnd | ⟨before, after, t', rfl, hBefore, hQ⟩ := ih hRest hKept
      · exact .inl hEnd
      · exact .inr ⟨l :: before, after, t', rfl, exec_cons_eq_some.mpr ⟨t, hFirst, hBefore⟩, hQ⟩
    · exact .inr ⟨[l], labels, t, rfl, (exec_singleton s l).trans hFirst, hEnded⟩

section Trace

variable {ε : Type w} (step) (emit : σ → ℓ → Option ε)

/-- What the steps of a run show, in order; a step may show nothing. -/
def trace : σ → List ℓ → List ε
  | _, [] => []
  | s, l :: labels => (emit s l).toList ++ ((step s l).elim [] fun t => trace t labels)

variable {step} {emit}

theorem trace_snoc {s t : σ} {labels : List ℓ} (l : ℓ) (hRun : exec step s labels = some t) :
    trace step emit s (labels ++ [l]) =
      trace step emit s labels ++ (emit t l).toList := by
  induction labels generalizing s with
  | nil =>
    cases hRun
    have hLast : ((step t l).elim [] fun _ => ([] : List ε)) = [] := by cases step t l <;> rfl
    simp [trace, hLast]
  | cons l' labels ih =>
    obtain ⟨u, hFirst, hRest⟩ := exec_cons_eq_some.mp hRun
    rw [List.cons_append, trace, trace, hFirst, Option.elim_some, Option.elim_some, ih hRest,
      List.append_assoc]

end Trace

section Always

variable {P : σ → List ℓ → Prop}

/-- A property holds of each state of a run with the labels that are still to come. -/
def Throughout (step : σ → ℓ → Option σ) (P : σ → List ℓ → Prop) : σ → List ℓ → Prop
  | s, [] => P s []
  | s, l :: labels =>
    P s (l :: labels) ∧ (step s l).elim True fun t => Throughout step P t labels

instance decidableThroughout [∀ s labels, Decidable (P s labels)] :
    ∀ s labels, Decidable (Throughout step P s labels)
  | s, [] => inferInstanceAs (Decidable (P s []))
  | s, l :: labels =>
    have : Decidable ((step s l).elim True fun t => Throughout step P t labels) :=
      match step s l with
      | none => .isTrue trivial
      | some t => decidableThroughout t labels
    inferInstanceAs (Decidable (P s (l :: labels) ∧ _))

theorem Throughout.now {s : σ} {labels : List ℓ} (h : Throughout step P s labels) :
    P s labels := by
  cases labels with
  | nil => exact h
  | cons l labels => exact h.1

theorem Throughout.suffix {s t : σ} {first second : List ℓ}
    (hRun : exec step s first = some t) (h : Throughout step P s (first ++ second)) :
    Throughout step P t second := by
  induction first generalizing s with
  | nil =>
    cases hRun
    exact h
  | cons l first ih =>
    obtain ⟨u, hFirst, hRest⟩ := exec_cons_eq_some.mp hRun
    rw [List.cons_append, Throughout, hFirst] at h
    exact ih hRest h.2

end Always

section Total

variable {ρ : Type w}

/-- The sum of a number for each step of a run. -/
def total (step : σ → ℓ → Option σ) (f : σ → ℓ → ℕ) : σ → List ℓ → ℕ
  | _, [] => 0
  | s, l :: labels => f s l + (step s l).elim 0 fun t => total step f t labels

variable {f g : σ → ℓ → ℕ}

theorem total_cons {s t : σ} {l : ℓ} (hStep : step s l = some t) (labels : List ℓ) :
    total step f s (l :: labels) = f s l + total step f t labels := by
  rw [total, hStep, Option.elim_some]

theorem total_append {s t : σ} {first : List ℓ} (hRun : exec step s first = some t)
    (second : List ℓ) :
    total step f s (first ++ second) = total step f s first + total step f t second := by
  induction first generalizing s with
  | nil =>
    cases hRun
    exact (Nat.zero_add _).symm
  | cons l first ih =>
    obtain ⟨u, hFirst, hRest⟩ := exec_cons_eq_some.mp hRun
    rw [List.cons_append, total_cons hFirst, total_cons hFirst, ih hRest, Nat.add_assoc]

theorem total_le_length (h : ∀ s l, f s l ≤ 1) (s : σ) (labels : List ℓ) :
    total step f s labels ≤ labels.length := by
  induction labels generalizing s with
  | nil => exact Nat.le_refl _
  | cons l labels ih =>
    rw [total, List.length_cons, Nat.add_comm]
    refine Nat.add_le_add ?_ (h s l)
    cases step s l with
    | none => exact Nat.zero_le _
    | some t => exact ih t

theorem total_eq_length (h : ∀ s l t, step s l = some t → f s l = 1) {s t : σ} {labels : List ℓ}
    (hRun : exec step s labels = some t) : total step f s labels = labels.length := by
  induction labels generalizing s with
  | nil => rfl
  | cons l labels ih =>
    obtain ⟨u, hFirst, hRest⟩ := exec_cons_eq_some.mp hRun
    rw [total_cons hFirst, h s l u hFirst, ih hRest, List.length_cons, Nat.add_comm]

theorem total_mono {labels : List ℓ} (h : ∀ s, ∀ l ∈ labels, f s l ≤ g s l) (s : σ) :
    total step f s labels ≤ total step g s labels := by
  induction labels generalizing s with
  | nil => exact Nat.le_refl _
  | cons l labels ih =>
    obtain ⟨hLabel, hOthers⟩ := List.forall_mem_cons.mp (fun l' hl' s => h s l' hl')
    rw [total, total]
    refine Nat.add_le_add (hLabel s) ?_
    cases step s l with
    | none => exact Nat.le_refl _
    | some t => exact ih (fun s l hl => hOthers l hl s) t

theorem total_congr {labels : List ℓ} (h : ∀ s, ∀ l ∈ labels, f s l = g s l) (s : σ) :
    total step f s labels = total step g s labels :=
  Nat.le_antisymm (total_mono (fun s l hl => (h s l hl).le) s)
    (total_mono (fun s l hl => (h s l hl).ge) s)

theorem total_const_mul (k : ℕ) (s : σ) (labels : List ℓ) :
    total step (fun s l => k * f s l) s labels = k * total step f s labels := by
  induction labels generalizing s with
  | nil => rfl
  | cons l labels ih =>
    rw [total, total, Nat.mul_add]
    cases step s l with
    | none => rfl
    | some t => simp only [Option.elim_some, ih t]

theorem total_eq_zero {labels : List ℓ} (h : ∀ s, ∀ l ∈ labels, f s l = 0) (s : σ) :
    total step f s labels = 0 := by
  have hZero : total step (fun s l => 0 * f s l) s labels = 0 * total step f s labels :=
    total_const_mul 0 s labels
  rw [Nat.zero_mul] at hZero
  rw [← hZero]
  exact total_congr (fun s l hl => by rw [h s l hl]) s

theorem total_add (s : σ) (labels : List ℓ) :
    total step (fun s l => f s l + g s l) s labels =
      total step f s labels + total step g s labels := by
  induction labels generalizing s with
  | nil => rfl
  | cons l labels ih =>
    rw [total, total, total]
    cases step s l with
    | none => rfl
    | some t =>
      simp only [Option.elim_some, ih t]
      omega

theorem total_sum {κ : Type w} (kinds : Finset κ) (cost : κ → σ → ℓ → ℕ) (s : σ)
    (labels : List ℓ) :
    total step (fun s l => ∑ k ∈ kinds, cost k s l) s labels =
      ∑ k ∈ kinds, total step (cost k) s labels := by
  classical
  induction kinds using Finset.induction_on with
  | empty => exact total_eq_zero (fun _ _ _ => Finset.sum_empty) s
  | insert k kinds hk ih =>
    simp only [Finset.sum_insert hk, total_add, ih]

/-- A run and its image under a map that keeps the steps cost the same. -/
theorem total_map {τ : Type w} {step' : τ → ℓ → Option τ} (φ : σ → τ) (cost : τ → ℓ → ℕ)
    (hStep : ∀ s l t, step s l = some t → step' (φ s) l = some (φ t)) {s t : σ} {labels : List ℓ}
    (hRun : exec step s labels = some t) :
    total step (fun s => cost (φ s)) s labels = total step' cost (φ s) labels := by
  induction labels generalizing s with
  | nil => rfl
  | cons l labels ih =>
    obtain ⟨u, hFirst, hRest⟩ := exec_cons_eq_some.mp hRun
    rw [total_cons hFirst, total_cons (hStep s l u hFirst), ih hRest]

/-- The method of potentials. The states of a run are paired with witnesses; each step pays
for its cost with its credit and with what it takes from the potential. -/
theorem total_potential {R : σ → ρ → Prop} (cost credit : σ → ℓ → ℕ) (potential : σ → ρ → ℕ)
    (hStep : ∀ s a l t, R s a → step s l = some t →
      ∃ b, R t b ∧ cost s l + potential t b ≤ credit s l + potential s a)
    {s t : σ} {a : ρ} {labels : List ℓ} (hStart : R s a) (hRun : exec step s labels = some t) :
    ∃ b, R t b ∧ total step cost s labels + potential t b ≤
      total step credit s labels + potential s a := by
  induction labels generalizing s a with
  | nil =>
    cases hRun
    exact ⟨a, hStart, Nat.le_refl _⟩
  | cons l labels ih =>
    obtain ⟨u, hFirst, hRest⟩ := exec_cons_eq_some.mp hRun
    obtain ⟨b, hMid, hPay⟩ := hStep s a l u hStart hFirst
    obtain ⟨b', hEnd, hSum⟩ := ih hMid hRest
    refine ⟨b', hEnd, ?_⟩
    rw [total_cons hFirst, total_cons hFirst]
    omega

/-- Charging to windows. If each step that costs something opens a window of B labels with some
credit in it, then the cost is at most B for each unit of credit and for the last window. -/
theorem total_windows {P : σ → List ℓ → Prop} {B : ℕ} (cost credit : σ → ℓ → ℕ)
    (hCost : ∀ s l, cost s l ≤ 1)
    (hPay : ∀ s l labels t, P s (l :: labels) → exec step s (l :: labels) = some t →
      cost s l ≠ 0 → B ≤ (l :: labels).length →
      0 < total step credit s ((l :: labels).take B))
    {s t : σ} {labels : List ℓ} (hRun : exec step s labels = some t)
    (hAlways : Throughout step P s labels) :
    total step cost s labels ≤ B * (total step credit s labels + 1) := by
  induction hLength : labels.length using Nat.strong_induction_on generalizing s labels with
  | _ n ih =>
  subst hLength
  cases labels with
  | nil => exact Nat.zero_le _
  | cons l labels =>
    by_cases hFree : cost s l = 0
    · obtain ⟨u, hFirst, hRest⟩ := exec_cons_eq_some.mp hRun
      have hAll : Throughout step P s ([l] ++ labels) := hAlways
      have hLater := ih labels.length (Nat.lt_succ_self _) hRest
        (hAll.suffix ((exec_singleton s l).trans hFirst)) rfl
      rw [total_cons hFirst, total_cons hFirst, hFree, Nat.zero_add]
      exact hLater.trans (Nat.mul_le_mul_left B (by omega))
    by_cases hLong : B ≤ (l :: labels).length
    · have hPaid := hPay s l labels t hAlways.now hRun hFree hLong
      have hB : 0 < B := by
        refine Nat.pos_of_ne_zero ?_
        rintro rfl
        exact absurd hPaid (Nat.lt_irrefl 0)
      generalize l :: labels = all at *
      have hSplit := List.take_append_drop B all
      rw [← hSplit] at hRun hAlways
      obtain ⟨u, hWindow, hAfter⟩ := exec_append_eq_some.mp hRun
      have hLater := ih (all.drop B).length (by rw [List.length_drop]; omega) hAfter
        (hAlways.suffix hWindow) rfl
      have hNow : total step cost s (all.take B) ≤ B :=
        (total_le_length hCost s (all.take B)).trans (List.length_take_le B all)
      rw [← hSplit, total_append hWindow, total_append hWindow]
      calc total step cost s (all.take B) + total step cost u (all.drop B)
          ≤ B * (total step credit u (all.drop B) + 1) + B := by omega
        _ = B * (total step credit u (all.drop B) + 1 + 1) := (Nat.mul_succ ..).symm
        _ ≤ B * (total step credit s (all.take B) + total step credit u (all.drop B) + 1) :=
          Nat.mul_le_mul_left B (by omega)
    · refine (total_le_length hCost s _).trans ((Nat.lt_of_not_le hLong).le.trans ?_)
      exact Nat.le_mul_of_pos_right B (Nat.succ_pos _)

end Total

section Simulation

variable {τ : Type w} {κ : Type v} {ε : Type x}
variable {stepAbove : τ → κ → Option τ}

theorem exec_map {step' : τ → ℓ → Option τ} (f : σ → τ)
    (hStep : ∀ s l t, step s l = some t → step' (f s) l = some (f t))
    {s t : σ} {labels : List ℓ} (hRun : exec step s labels = some t) :
    exec step' (f s) labels = some (f t) :=
  exec_induction (P := fun labels t => exec step' (f s) labels = some (f t)) rfl
    (fun _ t l u _ ih hLast => exec_snoc_eq_some.mpr ⟨f t, ih, hStep t l u hLast⟩) labels t hRun

/-- A map that commutes with the steps of the states that have an invariant. -/
theorem exec_commutes {P : σ → Prop} {step' : τ → ℓ → Option τ} (f : σ → τ)
    (hStep : ∀ s l, P s → step' (f s) l = (step s l).map f)
    (hInvariant : ∀ s l t, P s → step s l = some t → P t) {s : σ} (hStart : P s)
    (labels : List ℓ) : exec step' (f s) labels = (exec step s labels).map f := by
  induction labels generalizing s with
  | nil => rfl
  | cons l labels ih =>
    rw [exec_cons, exec_cons, hStep s l hStart]
    cases hFirst : step s l with
    | none => rfl
    | some t => exact ih (hInvariant s l t hStart hFirst)

/-- Forward simulation. Each step below is answered by some steps above that show
the same events; then so is each run, and the two ends are related. -/
theorem exec_simulation {R : σ → τ → Prop} (event : ℓ → Option ε) (eventAbove : κ → Option ε)
    (hStep : ∀ s l t a, R s a → step s l = some t →
      ∃ above b, exec stepAbove a above = some b ∧
        above.filterMap eventAbove = [l].filterMap event ∧ R t b)
    {s t : σ} {a : τ} {labels : List ℓ} (hStart : R s a) (hRun : exec step s labels = some t) :
    ∃ above b, exec stepAbove a above = some b ∧
      above.filterMap eventAbove = labels.filterMap event ∧ R t b := by
  refine exec_induction (P := fun labels t => ∃ above b, exec stepAbove a above = some b ∧
    above.filterMap eventAbove = labels.filterMap event ∧ R t b)
    ⟨[], a, rfl, rfl, hStart⟩ ?_ labels t hRun
  rintro labels t l u - ⟨above, b, hAbove, hEvents, hRel⟩ hLast
  obtain ⟨more, c, hMore, hSame, hNext⟩ := hStep t l u b hRel hLast
  refine ⟨above ++ more, c, exec_append_eq_some.mpr ⟨b, hAbove, hMore⟩, ?_, hNext⟩
  rw [List.filterMap_append, List.filterMap_append, hEvents, hSame]

end Simulation

end Runs
