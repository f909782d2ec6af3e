import Mathlib.Data.List.Nodup
import Mathlib.Logic.Function.Basic
import NureQueue.Lib.Runs

/-! # Linearizability of histories and the atomic object

A history lists the calls and returns of all threads in the order they happened.
It is linearizable for a sequential object if some order of its calls is legal for
the object, has every returned result, and respects real time. The atomic object
below carries out each call in one commit between its call and its return; the
theorem of this module is that the commits of a run are such an order of its history. An
implementation is then shown linearizable by a forward simulation into the atomic object.
-/

namespace Linearizability

universe u v w x

variable {ι : Type u} {Op : Type v} {Ret : Type w} {σ : Type x}

structure Object (Op : Type v) (Ret : Type w) (σ : Type x) where
  init : σ
  apply : σ → Op → σ × Ret

namespace Object

variable (O : Object Op Ret σ)

def after (s : σ) (ops : List (Op × Ret)) : σ :=
  ops.foldl (fun s x => (O.apply s x.1).1) s

def results : σ → List Op → List Ret
  | _, [] => []
  | s, op :: ops => (O.apply s op).2 :: results (O.apply s op).1 ops

def Legal : σ → List (Op × Ret) → Prop
  | _, [] => True
  | s, (op, r) :: rest => (O.apply s op).2 = r ∧ Legal (O.apply s op).1 rest

theorem after_snoc (s : σ) (ops : List (Op × Ret)) (x : Op × Ret) :
    O.after s (ops ++ [x]) = (O.apply (O.after s ops) x.1).1 := by
  simp [after]

theorem legal_snoc (s : σ) (ops : List (Op × Ret)) (op : Op) (r : Ret) :
    O.Legal s (ops ++ [(op, r)]) ↔ O.Legal s ops ∧ (O.apply (O.after s ops) op).2 = r := by
  induction ops generalizing s with
  | nil => simp [Legal, after]
  | cons x ops ih =>
    obtain ⟨op', r'⟩ := x
    simp only [List.cons_append, Legal, ih, and_assoc]
    rfl

end Object

inductive Event (ι : Type u) (Op : Type v) (Ret : Type w) where
  | call (t : ι) (op : Op)
  | ret (t : ι) (r : Ret)

def Event.thread : Event ι Op Ret → ι
  | .call t _ => t
  | .ret t _ => t

abbrev History (ι : Type u) (Op : Type v) (Ret : Type w) := List (Event ι Op Ret)

/-- The call at position i is open: its thread has done nothing after it. -/
def Open (h : History ι Op Ret) (t : ι) (i : ℕ) (op : Op) : Prop :=
  h[i]? = some (.call t op) ∧ ∀ k e, i < k → h[k]? = some e → e.thread ≠ t

/-- The call at position i is answered by the return at position j. -/
def Returned (h : History ι Op Ret) (i j : ℕ) (r : Ret) : Prop :=
  ∃ t op, h[i]? = some (.call t op) ∧ h[j]? = some (.ret t r) ∧ i < j ∧
    ∀ k e, i < k → k < j → h[k]? = some e → e.thread ≠ t

def Precedes (h : History ι Op Ret) (i i' : ℕ) : Prop :=
  ∃ j r, Returned h i j r ∧ j < i'

structure Entry (Op : Type v) (Ret : Type w) where
  call : ℕ
  op : Op
  ret : Ret

/-- The order holds calls of the history, no call twice and every returned one with
its result; it is legal; and no call stands behind one that it precedes in real time.
A call still in flight may be in the order or not. -/
structure Linearizes (O : Object Op Ret σ) (h : History ι Op Ret)
    (order : List (Entry Op Ret)) : Prop where
  nodup : (order.map Entry.call).Nodup
  called : ∀ x ∈ order, ∃ t, h[x.call]? = some (.call t x.op)
  returned : ∀ i j r, Returned h i j r → ∃ op, ⟨i, op, r⟩ ∈ order
  legal : O.Legal O.init (order.map fun x => (x.op, x.ret))
  realTime : order.Pairwise fun x y => ¬ Precedes h y.call x.call

/-- Each thread makes a call only after its last one has returned. -/
def Sequenced (h : History ι Op Ret) : Prop :=
  ∀ ⦃t i i' op op'⦄, h[i]? = some (.call t op) → h[i']? = some (.call t op') → i < i' →
    Precedes h i i'

def Linearizable (O : Object Op Ret σ) (h : History ι Op Ret) : Prop :=
  ∃ order, Linearizes O h order

theorem Open.unique {h : History ι Op Ret} {t : ι} {i i' : ℕ} {op op' : Op}
    (ho : Open h t i op) (ho' : Open h t i' op') : i = i' := by
  obtain hlt | heq | hgt := Nat.lt_trichotomy i i'
  · exact absurd rfl (ho.2 i' _ hlt ho'.1)
  · exact heq
  · exact absurd rfl (ho'.2 i _ hgt ho.1)

theorem Open.snoc {h : History ι Op Ret} {t : ι} {i : ℕ} {op : Op} {e : Event ι Op Ret}
    (ho : Open h t i op) (he : e.thread ≠ t) : Open (h ++ [e]) t i op := by
  refine ⟨Runs.getElem?_snoc ho.1, fun k e' hk he' => ?_⟩
  obtain hold | ⟨-, rfl⟩ := Runs.getElem?_snoc_cases he'
  · exact ho.2 k e' hk hold
  · exact he

theorem open_call (h : History ι Op Ret) (t : ι) (op : Op) :
    Open (h ++ [.call t op]) t h.length op := by
  refine ⟨by simp, fun k e hk he => ?_⟩
  have hlt := Runs.lt_length_of_getElem? he
  rw [List.length_append, List.length_singleton] at hlt
  omega

theorem Open.not_returned {h : History ι Op Ret} {t : ι} {i j : ℕ} {op : Op} {r : Ret}
    (ho : Open h t i op) : ¬ Returned h i j r := by
  rintro ⟨t', op', hi, hj, hij, -⟩
  cases ho.1.symm.trans hi
  exact ho.2 j _ hij hj rfl

/-- A return of a longer history is one of the shorter history, or it is the event
just added and answers an open call. -/
theorem Returned.of_snoc {h : History ι Op Ret} {e : Event ι Op Ret} {i j : ℕ} {r : Ret}
    (hr : Returned (h ++ [e]) i j r) :
    Returned h i j r ∨ (j = h.length ∧ ∃ t op, e = .ret t r ∧ Open h t i op) := by
  obtain ⟨t, op, hi, hj, hij, hBetween⟩ := hr
  have hlt := Runs.lt_length_of_getElem? hj
  rw [List.length_append, List.length_singleton] at hlt
  have hCall : h[i]? = some (.call t op) := by
    rwa [List.getElem?_append_left (by omega)] at hi
  have hBefore : ∀ k e', i < k → k < j → h[k]? = some e' → e'.thread ≠ t :=
    fun k e' hk hkj he' => hBetween k e' hk hkj (Runs.getElem?_snoc he')
  obtain hold | ⟨rfl, rfl⟩ := Runs.getElem?_snoc_cases hj
  · exact .inl ⟨t, op, hCall, hold, hij, hBefore⟩
  · exact .inr ⟨rfl, t, op, rfl, hCall,
      fun k e' hk he' => hBefore k e' hk (Runs.lt_length_of_getElem? he') he'⟩

theorem Returned.snoc {h : History ι Op Ret} {i j : ℕ} {r : Ret} (hr : Returned h i j r)
    (e : Event ι Op Ret) : Returned (h ++ [e]) i j r := by
  obtain ⟨t, op, hi, hj, hij, hBetween⟩ := hr
  refine ⟨t, op, Runs.getElem?_snoc hi, Runs.getElem?_snoc hj, hij, ?_⟩
  intro k e' hik hkj he'
  have hLt := hkj.trans (Runs.lt_length_of_getElem? hj)
  rw [List.getElem?_append_left hLt] at he'
  exact hBetween k e' hik hkj he'

theorem Open.returned {h : History ι Op Ret} {t : ι} {i : ℕ} {op : Op} (ho : Open h t i op)
    (r : Ret) : Returned (h ++ [.ret t r]) i h.length r := by
  refine ⟨t, op, Runs.getElem?_snoc ho.1, by simp, Runs.lt_length_of_getElem? ho.1, ?_⟩
  intro k e hik hkj he
  rw [List.getElem?_append_left hkj] at he
  exact ho.2 k e hik he

theorem Open.append {h : History ι Op Ret} {t : ι} {i : ℕ} {op : Op} (ho : Open h t i op)
    {events : History ι Op Ret} (hOthers : ∀ e ∈ events, e.thread ≠ t) :
    Open (h ++ events) t i op := by
  induction events using List.reverseRecOn with
  | nil => rwa [List.append_nil]
  | append_singleton events e ih =>
    rw [← List.append_assoc]
    refine Open.snoc (ih fun e he => hOthers e (List.mem_append_left _ he)) ?_
    exact hOthers e (List.mem_append_right _ (List.mem_singleton_self e))

/-- A thread's next call comes after the return of one that has returned. -/
theorem Returned.precedes {h : History ι Op Ret} {t : ι} {i i' j : ℕ} {op op' : Op} {r : Ret}
    (hReturned : Returned h i j r) (hCall : h[i]? = some (.call t op))
    (hNext : h[i']? = some (.call t op')) (hLt : i < i') : Precedes h i i' := by
  refine ⟨j, r, hReturned, ?_⟩
  obtain ⟨t', op'', hi, hj, -, hBetween⟩ := hReturned
  cases hCall.symm.trans hi
  obtain hlt | rfl | hgt := Nat.lt_trichotomy i' j
  · exact absurd rfl (hBetween i' _ hLt hlt hNext)
  · cases hNext.symm.trans hj
  · exact hgt

theorem Precedes.of_snoc {h : History ι Op Ret} {e : Event ι Op Ret} {i i' : ℕ}
    (hp : Precedes (h ++ [e]) i i') (hi' : i' < h.length) : Precedes h i i' := by
  obtain ⟨j, r, hr, hj⟩ := hp
  obtain hold | ⟨rfl, -⟩ := hr.of_snoc
  · exact ⟨j, r, hold, hj⟩
  · omega

/-- A linearization stays one when an event is added, if a return that was added is
of a call in the order, with the result it has there. -/
theorem Linearizes.snoc {O : Object Op Ret σ} {h : History ι Op Ret}
    {order : List (Entry Op Ret)} {e : Event ι Op Ret} (hl : Linearizes O h order)
    (hNew : ∀ t i op r, e = .ret t r → Open h t i op → ∃ op, ⟨i, op, r⟩ ∈ order) :
    Linearizes O (h ++ [e]) order where
  nodup := hl.nodup
  called x hx := (hl.called x hx).imp fun _ hc => Runs.getElem?_snoc hc
  returned i j r hr := by
    obtain hold | ⟨-, t, op, he, ho⟩ := hr.of_snoc
    · exact hl.returned i j r hold
    · exact hNew t i op r he ho
  legal := hl.legal
  realTime := by
    refine hl.realTime.imp_of_mem fun {x y} hx _ hxy hp => hxy (hp.of_snoc ?_)
    obtain ⟨t, hc⟩ := hl.called x hx
    exact Runs.lt_length_of_getElem? hc

theorem Linearizes.commit {O : Object Op Ret σ} {h : History ι Op Ret}
    {order : List (Entry Op Ret)} {t : ι} {i : ℕ} {op : Op} (hl : Linearizes O h order)
    (ho : Open h t i op) (hFresh : i ∉ order.map Entry.call) :
    Linearizes O h (order ++ [⟨i, op,
      (O.apply (O.after O.init (order.map fun x => (x.op, x.ret))) op).2⟩]) where
  nodup := by
    rw [List.map_append, List.map_singleton]
    exact List.nodup_append_comm.mp (List.nodup_cons.mpr ⟨hFresh, hl.nodup⟩)
  called x hx := by
    obtain hx | hx := List.mem_append.mp hx
    · exact hl.called x hx
    · cases List.mem_singleton.mp hx
      exact ⟨t, ho.1⟩
  returned i j r hr := by
    obtain ⟨op, hop⟩ := hl.returned i j r hr
    exact ⟨op, List.mem_append_left _ hop⟩
  legal := by
    rw [List.map_append, List.map_singleton, O.legal_snoc]
    exact ⟨hl.legal, rfl⟩
  realTime := by
    refine List.pairwise_append.mpr ⟨hl.realTime, List.pairwise_singleton _ _, fun x _ y hy => ?_⟩
    cases List.mem_singleton.mp hy
    rintro ⟨j, r, hr, -⟩
    exact ho.not_returned hr

inductive Phase (Op : Type v) (Ret : Type w) where
  | idle
  | pending (op : Op)
  | committed (r : Ret)

structure Atomic (ι : Type u) (Op : Type v) (Ret : Type w) (σ : Type x) where
  obj : σ
  phase : ι → Phase Op Ret

inductive AtomicLabel (ι : Type u) (Op : Type v) (Ret : Type w) where
  | event (e : Event ι Op Ret)
  | commit (t : ι)

def AtomicLabel.event? : AtomicLabel ι Op Ret → Option (Event ι Op Ret)
  | .event e => some e
  | .commit _ => none

namespace Atomic

def start (O : Object Op Ret σ) : Atomic ι Op Ret σ := ⟨O.init, fun _ => .idle⟩

def Tracks (h : History ι Op Ret) (order : List (Entry Op Ret)) (t : ι) : Phase Op Ret → Prop
  | .idle => True
  | .pending op => ∃ i, Open h t i op ∧ i ∉ order.map Entry.call
  | .committed r => ∃ i op op', Open h t i op ∧ ⟨i, op', r⟩ ∈ order

/-- Each call of thread t has returned, but for the one that it is in. -/
def Answered (h : History ι Op Ret) (t : ι) (p : Phase Op Ret) : Prop :=
  ∀ i op, h[i]? = some (.call t op) → (∃ j r, Returned h i j r) ∨ p ≠ .idle ∧ Open h t i op

structure Explains (O : Object Op Ret σ) (h : History ι Op Ret) (order : List (Entry Op Ret))
    (a : Atomic ι Op Ret σ) : Prop where
  linearizes : Linearizes O h order
  obj : a.obj = O.after O.init (order.map fun x => (x.op, x.ret))
  tracks : ∀ t, Tracks h order t (a.phase t)
  answered : ∀ t, Answered h t (a.phase t)

section Answered

variable {h : History ι Op Ret} {t : ι} {p p' : Phase Op Ret}

theorem Answered.other (ha : Answered h t p) {e : Event ι Op Ret} (he : e.thread ≠ t) :
    Answered (h ++ [e]) t p := by
  intro i op hi
  obtain hOld | ⟨-, rfl⟩ := Runs.getElem?_snoc_cases hi
  · obtain ⟨j, r, hr⟩ | ⟨hBusy, ho⟩ := ha i op hOld
    · exact .inl ⟨j, r, hr.snoc e⟩
    · exact .inr ⟨hBusy, ho.snoc he⟩
  · exact absurd rfl he

theorem Answered.call (ha : Answered h t .idle) (op : Op) (hBusy : p ≠ .idle) :
    Answered (h ++ [.call t op]) t p := by
  intro i op' hi
  obtain hOld | ⟨rfl, hNew⟩ := Runs.getElem?_snoc_cases hi
  · obtain ⟨j, r, hr⟩ | ⟨hIdle, -⟩ := ha i op' hOld
    · exact .inl ⟨j, r, hr.snoc _⟩
    · exact absurd rfl hIdle
  · cases hNew
    exact .inr ⟨hBusy, open_call h t op⟩

theorem Answered.ret (ha : Answered h t p) (r : Ret) (p' : Phase Op Ret) :
    Answered (h ++ [.ret t r]) t p' := by
  intro i op hi
  obtain hOld | ⟨-, hNew⟩ := Runs.getElem?_snoc_cases hi
  · obtain ⟨j, r', hr⟩ | ⟨-, ho⟩ := ha i op hOld
    · exact .inl ⟨j, r', hr.snoc _⟩
    · exact .inl ⟨h.length, r, ho.returned r⟩
  · cases hNew

theorem Answered.busy (ha : Answered h t p) (hBusy : p' ≠ .idle) : Answered h t p' :=
  fun i op hi => (ha i op hi).imp_right fun ho => ⟨hBusy, ho.2⟩

end Answered

theorem Explains.sequenced {O : Object Op Ret σ} {h : History ι Op Ret}
    {order : List (Entry Op Ret)} {a : Atomic ι Op Ret σ} (ha : Explains O h order a) :
    Sequenced h := by
  intro t i i' op op' hi hi' hLt
  obtain ⟨j, r, hr⟩ | ⟨-, ho⟩ := ha.answered t i op hi
  · exact hr.precedes hi hi' hLt
  · exact absurd rfl (ho.2 i' _ hLt hi')

theorem Tracks.snoc {h : History ι Op Ret} {order : List (Entry Op Ret)} {t : ι}
    {p : Phase Op Ret} {e : Event ι Op Ret} (hp : Tracks h order t p) (he : e.thread ≠ t) :
    Tracks (h ++ [e]) order t p := by
  cases p with
  | idle => trivial
  | pending op =>
    obtain ⟨i, ho, hi⟩ := hp
    exact ⟨i, ho.snoc he, hi⟩
  | committed r =>
    obtain ⟨i, op, op', ho, hi⟩ := hp
    exact ⟨i, op, op', ho.snoc he, hi⟩

theorem Tracks.commit {h : History ι Op Ret} {order : List (Entry Op Ret)} {t u : ι}
    {p : Phase Op Ret} {x : Entry Op Ret} {op : Op} (hp : Tracks h order u p)
    (hx : Open h t x.call op) (hne : u ≠ t) : Tracks h (order ++ [x]) u p := by
  cases p with
  | idle => trivial
  | pending op' =>
    obtain ⟨i, ho, hi⟩ := hp
    refine ⟨i, ho, fun hmem => ?_⟩
    rw [List.map_append, List.map_singleton, List.mem_append, List.mem_singleton] at hmem
    obtain hmem | rfl := hmem
    · exact hi hmem
    · cases ho.1.symm.trans hx.1
      exact hne rfl
  | committed r =>
    obtain ⟨i, op', op'', ho, hi⟩ := hp
    exact ⟨i, op', op'', ho, List.mem_append_left _ hi⟩

variable [DecidableEq ι] [DecidableEq Ret]

def step (O : Object Op Ret σ) (a : Atomic ι Op Ret σ) :
    AtomicLabel ι Op Ret → Option (Atomic ι Op Ret σ)
  | .event (.call t op) =>
    match a.phase t with
    | .idle => some { a with phase := Function.update a.phase t (.pending op) }
    | _ => none
  | .commit t =>
    match a.phase t with
    | .pending op => some {
        obj := (O.apply a.obj op).1
        phase := Function.update a.phase t (.committed (O.apply a.obj op).2) }
    | _ => none
  | .event (.ret t r) =>
    match a.phase t with
    | .committed r' =>
      if r = r' then some { a with phase := Function.update a.phase t .idle } else none
    | _ => none

theorem Explains.event {O : Object Op Ret σ} {h : History ι Op Ret}
    {order : List (Entry Op Ret)} {a b : Atomic ι Op Ret σ} {e : Event ι Op Ret}
    (ha : Explains O h order a) (hStep : step O a (.event e) = some b) :
    Explains O (h ++ [e]) order b := by
  cases e with
  | call t op =>
    rw [step] at hStep
    split at hStep <;> cases hStep
    rename_i hPhase
    have hAnswered := ha.answered t
    rw [hPhase] at hAnswered
    refine ⟨ha.linearizes.snoc (fun _ _ _ _ he => by cases he), ha.obj, ?_, ?_⟩
    · refine (Function.forall_update_iff a.phase _).mpr ⟨⟨h.length, open_call h t op,
        fun hmem => ?_⟩, fun u hu => (ha.tracks u).snoc (Ne.symm hu)⟩
      obtain ⟨x, hx, hCall⟩ := List.mem_map.mp hmem
      obtain ⟨t, hc⟩ := ha.linearizes.called x hx
      exact absurd (Runs.lt_length_of_getElem? hc) (by omega)
    · exact (Function.forall_update_iff a.phase _).mpr
        ⟨hAnswered.call op nofun, fun u hu => (ha.answered u).other (Ne.symm hu)⟩
  | ret t r =>
    rw [step] at hStep
    split at hStep
    · rename_i r' hPhase
      split at hStep <;> cases hStep
      rename_i heq
      subst heq
      have hTracks := ha.tracks t
      rw [hPhase] at hTracks
      obtain ⟨i, op, op', ho, hi⟩ := hTracks
      refine ⟨ha.linearizes.snoc ?_, ha.obj, (Function.forall_update_iff a.phase _).mpr
        ⟨trivial, fun u hu => (ha.tracks u).snoc (Ne.symm hu)⟩,
        (Function.forall_update_iff a.phase _).mpr
          ⟨(ha.answered t).ret r _, fun u hu => (ha.answered u).other (Ne.symm hu)⟩⟩
      rintro t' i' op'' r' he ho'
      cases he
      exact ⟨op', ho.unique ho' ▸ hi⟩
    · cases hStep

theorem Explains.commit {O : Object Op Ret σ} {h : History ι Op Ret}
    {order : List (Entry Op Ret)} {a b : Atomic ι Op Ret σ} {t : ι}
    (ha : Explains O h order a) (hStep : step O a (.commit t) = some b) :
    ∃ order', Explains O h order' b := by
  rw [step] at hStep
  split at hStep <;> cases hStep
  rename_i op hPhase
  have hTracks := ha.tracks t
  rw [hPhase] at hTracks
  obtain ⟨i, ho, hi⟩ := hTracks
  refine ⟨_, ha.linearizes.commit ho hi, ?_, (Function.forall_update_iff a.phase _).mpr
    ⟨⟨i, op, op, ho, ?_⟩, fun u hu => (ha.tracks u).commit ho hu⟩,
    (Function.forall_update_iff a.phase _).mpr
      ⟨(ha.answered t).busy nofun, fun u _ => ha.answered u⟩⟩
  · rw [List.map_append, List.map_singleton, O.after_snoc, ← ha.obj]
  · rw [ha.obj]
    exact List.mem_append_right _ (List.mem_singleton_self _)

/-- The commits of a run give an order of its calls that explains the state reached. -/
theorem explains (O : Object Op Ret σ) {labels : List (AtomicLabel ι Op Ret)}
    {a : Atomic ι Op Ret σ} (hRun : Runs.exec (step O) (start O) labels = some a) :
    ∃ order, Explains O (labels.filterMap AtomicLabel.event?) order a := by
  refine Runs.exec_induction (P := fun labels a => ∃ order,
    Explains O (labels.filterMap AtomicLabel.event?) order a) ?_ ?_ labels a hRun
  · refine ⟨[], ⟨⟨List.nodup_nil, by simp, ?_, trivial, List.Pairwise.nil⟩, rfl,
      fun _ => trivial, ?_⟩⟩
    · rintro i j r ⟨t, op, hi, -⟩
      simp at hi
    · intro t i op hi
      simp at hi
  · rintro labels a l b - ⟨order, ha⟩ hStep
    cases l with
    | event e => exact ⟨order, by simpa [AtomicLabel.event?] using ha.event hStep⟩
    | commit t =>
      have hSame : (labels ++ [AtomicLabel.commit t]).filterMap AtomicLabel.event? =
          labels.filterMap AtomicLabel.event? := by
        rw [List.filterMap_append]
        exact List.append_nil _
      rw [hSame]
      exact ha.commit hStep

end Atomic

end Linearizability
