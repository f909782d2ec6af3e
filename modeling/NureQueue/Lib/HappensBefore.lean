import Mathlib.Logic.Relation
import NureQueue.Lib.Runs

/-! # Happens-before and data races

A trace lists the actions of all threads in the order they happened: acquire loads and
release stores of atomic objects, accesses to plain data, and everything else. An acquire
load synchronises with the release store that it reads from. Two accesses to one datum race
if the first does not come before the second in the order that these edges and the order of
each thread make; no other action, atomic or not, orders anything here.
-/

namespace HappensBefore

universe u v w

variable {ι : Type u} {X : Type v} {D : Type w}

inductive Action (X : Type v) (D : Type w) where
  | acquire (x : X)
  | release (x : X)
  | access (d : D)
  | other
  deriving DecidableEq

structure Event (ι : Type u) (X : Type v) (D : Type w) where
  thread : ι
  action : Action X D
  deriving DecidableEq

abbrev Trace (ι : Type u) (X : Type v) (D : Type w) := List (Event ι X D)

def DoneBy (tr : Trace ι X D) (t : ι) (i : ℕ) : Prop :=
  ∃ a, tr[i]? = some ⟨t, a⟩

def Releases (tr : Trace ι X D) (x : X) (i : ℕ) : Prop :=
  ∃ t, tr[i]? = some ⟨t, .release x⟩

def Accesses (tr : Trace ι X D) (d : D) (i : ℕ) : Prop :=
  ∃ t, tr[i]? = some ⟨t, .access d⟩

/-- Event i is the last release of x before position n. -/
def LastRelease (tr : Trace ι X D) (x : X) (n i : ℕ) : Prop :=
  i < n ∧ Releases tr x i ∧ ∀ k, i < k → k < n → ¬ Releases tr x k

def ProgramOrder (tr : Trace ι X D) (i j : ℕ) : Prop :=
  i < j ∧ ∃ t, DoneBy tr t i ∧ DoneBy tr t j

/-- The acquire load j reads what the release store i has written. -/
def SynchronizesWith (tr : Trace ι X D) (i j : ℕ) : Prop :=
  ∃ t x, tr[j]? = some ⟨t, .acquire x⟩ ∧ LastRelease tr x j i

def Before (tr : Trace ι X D) : ℕ → ℕ → Prop :=
  Relation.TransGen fun i j => ProgramOrder tr i j ∨ SynchronizesWith tr i j

/-- Any two accesses to one datum are ordered. -/
def RaceFree (tr : Trace ι X D) : Prop :=
  ∀ d i j, Accesses tr d i → Accesses tr d j → i < j → Before tr i j

section Snoc

variable {tr : Trace ι X D} {e : Event ι X D} {t : ι} {x : X} {d : D} {i j n : ℕ}

theorem DoneBy.lt (h : DoneBy tr t i) : i < tr.length := by
  obtain ⟨a, ha⟩ := h
  exact Runs.lt_length_of_getElem? ha

theorem DoneBy.snoc (h : DoneBy tr t i) : DoneBy (tr ++ [e]) t i := by
  obtain ⟨a, ha⟩ := h
  exact ⟨a, Runs.getElem?_snoc ha⟩

theorem Releases.lt (h : Releases tr x i) : i < tr.length := by
  obtain ⟨t, ht⟩ := h
  exact Runs.lt_length_of_getElem? ht

theorem Releases.snoc (h : Releases tr x i) : Releases (tr ++ [e]) x i := by
  obtain ⟨t, ht⟩ := h
  exact ⟨t, Runs.getElem?_snoc ht⟩

theorem Releases.of_snoc (h : Releases (tr ++ [e]) x i) :
    Releases tr x i ∨ (i = tr.length ∧ e.action = .release x) := by
  obtain ⟨t, ht⟩ := h
  obtain hOld | ⟨hi, rfl⟩ := Runs.getElem?_snoc_cases ht
  · exact .inl ⟨t, hOld⟩
  · exact .inr ⟨hi, rfl⟩

theorem Accesses.lt (h : Accesses tr d i) : i < tr.length := by
  obtain ⟨t, ht⟩ := h
  exact Runs.lt_length_of_getElem? ht

theorem Accesses.of_snoc (h : Accesses (tr ++ [e]) d i) :
    Accesses tr d i ∨ (i = tr.length ∧ e.action = .access d) := by
  obtain ⟨t, ht⟩ := h
  obtain hOld | ⟨hi, rfl⟩ := Runs.getElem?_snoc_cases ht
  · exact .inl ⟨t, hOld⟩
  · exact .inr ⟨hi, rfl⟩

theorem LastRelease.snoc (h : LastRelease tr x n i) (hn : n ≤ tr.length) :
    LastRelease (tr ++ [e]) x n i := by
  refine ⟨h.1, h.2.1.snoc, ?_⟩
  intro k hik hkn hk
  obtain hOld | ⟨rfl, -⟩ := hk.of_snoc
  · exact h.2.2 k hik hkn hOld
  · omega

theorem ProgramOrder.snoc (h : ProgramOrder tr i j) : ProgramOrder (tr ++ [e]) i j := by
  obtain ⟨hij, t, hi, hj⟩ := h
  exact ⟨hij, t, hi.snoc, hj.snoc⟩

theorem SynchronizesWith.snoc (h : SynchronizesWith tr i j) :
    SynchronizesWith (tr ++ [e]) i j := by
  obtain ⟨t, x, hj, hLast⟩ := h
  exact ⟨t, x, Runs.getElem?_snoc hj, hLast.snoc (Runs.lt_length_of_getElem? hj).le⟩

theorem Before.snoc (h : Before tr i j) : Before (tr ++ [e]) i j :=
  Relation.TransGen.mono (fun _ _ => Or.imp ProgramOrder.snoc SynchronizesWith.snoc) i j h

end Snoc

/-- Event i is one of thread t, or comes before one; so it comes before all that t does next. -/
def Known (tr : Trace ι X D) (t : ι) (i : ℕ) : Prop :=
  ∃ j, DoneBy tr t j ∧ Relation.ReflGen (Before tr) i j

/-- Event i comes before all that is done after an acquire of x, as x stands now. -/
def Published (tr : Trace ι X D) (x : X) (i : ℕ) : Prop :=
  ∃ j, LastRelease tr x tr.length j ∧ Relation.ReflGen (Before tr) i j

section Rules

variable {tr : Trace ι X D} {t : ι} {x : X} {d : D} {i j : ℕ}

theorem reflGen_snoc {e : Event ι X D} (h : Relation.ReflGen (Before tr) i j) :
    Relation.ReflGen (Before (tr ++ [e])) i j :=
  Relation.ReflGen.mono (fun _ _ => Before.snoc) i j h

theorem reflGen_trans {k : ℕ} (h : Relation.ReflGen (Before tr) i j)
    (hj : Before tr j k) : Before tr i k := by
  cases h with
  | refl => exact hj
  | single hi => exact hi.trans hj

theorem Known.snoc (h : Known tr t i) (e : Event ι X D) : Known (tr ++ [e]) t i := by
  obtain ⟨j, hj, hi⟩ := h
  exact ⟨j, hj.snoc, reflGen_snoc hi⟩

theorem Known.self (tr : Trace ι X D) (t : ι) (a : Action X D) :
    Known (tr ++ [⟨t, a⟩]) t tr.length :=
  ⟨tr.length, ⟨a, List.getElem?_concat_length⟩, .refl⟩

/-- What a thread has seen comes before its next event. -/
theorem Known.before (h : Known tr t i) (a : Action X D) :
    Before (tr ++ [⟨t, a⟩]) i tr.length := by
  obtain ⟨j, hj, hi⟩ := h
  refine reflGen_trans (reflGen_snoc hi) (.single (.inl ⟨hj.lt, t, hj.snoc, a, ?_⟩))
  exact List.getElem?_concat_length

theorem Published.snoc (h : Published tr x i) {e : Event ι X D} (he : e.action ≠ .release x) :
    Published (tr ++ [e]) x i := by
  obtain ⟨j, ⟨hlt, hj, hLast⟩, hi⟩ := h
  refine ⟨j, ⟨?_, hj.snoc, ?_⟩, reflGen_snoc hi⟩
  · rw [List.length_append]
    exact Nat.lt_add_right _ hlt
  · intro k hjk _ hk
    obtain hOld | ⟨-, hNew⟩ := hk.of_snoc
    · exact hLast k hjk hOld.lt hOld
    · exact he hNew

/-- A release publishes all that its thread has seen. -/
theorem Known.release (h : Known tr t i) (x : X) : Published (tr ++ [⟨t, .release x⟩]) x i := by
  refine ⟨tr.length, ⟨?_, ⟨t, List.getElem?_concat_length⟩, ?_⟩, .single (h.before _)⟩
  · rw [List.length_append]
    exact Nat.lt_succ_self _
  · intro k hk hlt _
    rw [List.length_append, List.length_singleton] at hlt
    omega

/-- An acquire sees all that is published. -/
theorem Published.acquire (h : Published tr x i) (t : ι) :
    Known (tr ++ [⟨t, .acquire x⟩]) t i := by
  obtain ⟨j, hLast, hi⟩ := h
  have hNew : (tr ++ [⟨t, .acquire x⟩])[tr.length]? = some ⟨t, .acquire x⟩ :=
    List.getElem?_concat_length
  refine ⟨tr.length, ⟨_, hNew⟩, .single (reflGen_trans (reflGen_snoc hi) (.single (.inr ?_)))⟩
  exact ⟨t, x, hNew, hLast.snoc (Nat.le_refl _)⟩

theorem RaceFree.nil : RaceFree ([] : Trace ι X D) := by
  rintro d i j ⟨t, ht⟩
  cases ht

/-- A trace stays free of races if its next access is to a datum whose accesses so far
its thread has all seen. -/
theorem RaceFree.snoc (h : RaceFree tr) (a : Action X D)
    (hSeen : ∀ d, a = .access d → ∀ i, Accesses tr d i → Known tr t i) :
    RaceFree (tr ++ [⟨t, a⟩]) := by
  intro d i j hi hj hij
  have hLen := hj.lt
  rw [List.length_append, List.length_singleton] at hLen
  obtain hi | ⟨rfl, -⟩ := hi.of_snoc
  · obtain hj | ⟨rfl, hNew⟩ := hj.of_snoc
    · exact (h d i j hi hj hij).snoc
    · exact (hSeen d hNew i hi).before a
  · omega

end Rules

end HappensBefore
