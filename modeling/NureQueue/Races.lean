import NureQueue.Fifo
import NureQueue.Lib.HappensBefore
import NureQueue.Stores

/-! # The accesses to slot values do not race

A slot's value is plain memory. What orders its accesses is the slot's stamp alone, which is
loaded with acquire and stored with release ordering: all that has been done to a slot at
rest is published by its stamp, an owner has seen all that was done to its slot, and so has a
call that is about to claim a slot whose stamp it has loaded.
-/

namespace NureQueue

open HappensBefore

universe u v

variable {c : Config} {ι : Type v} {α : Type u}

/-- The orderings of `stamp_load` and `stamp_store`. The accesses to head and tail, and the
fences, are not relied on for the order of anything else. -/
def Access.action : Access → HappensBefore.Action ℕ ℕ
  | .loadStamp i => .acquire i
  | .storeStamp i => .release i
  | .writeValue i | .readValue i | .replaceValue i => .access i
  | _ => .other

namespace System

def event? (s : System c ι α) : Label ι α → Option (Event ι ℕ ℕ)
  | .call _ _ | .ret _ _ => none
  | .step t spurious => ((s.pc t).step s.queue spurious).map fun x => ⟨t, x.1.action⟩

def trace [DecidableEq ι] [DecidableEq α] (s : System c ι α) (labels : List (Label ι α)) :
    Trace ι ℕ ℕ :=
  Runs.trace step event? s labels

theorem trace_snoc [DecidableEq ι] [DecidableEq α] {s s' : System c ι α}
    {labels : List (Label ι α)} (hRun : Runs.exec step s labels = some s') (l : Label ι α) :
    s.trace (labels ++ [l]) = s.trace labels ++ (s'.event? l).toList :=
  Runs.trace_snoc l hRun

end System

/-- The version of the stamp that a call at this point has found in the slot of its word,
where k is the noted position. -/
def Pc.foundVersion (k : ℕ) : Pc c α → Option ℕ
  | .pushCas .. | .popTail _ => some (2 * k)
  | .fullLoad .. | .forceCas .. => some (2 * k + 1 - 2 * c.N)
  | .popCas _ => some (2 * k + 1)
  | _ => none

section Cells

variable {m : Monitored c ι α} {r r' : Ring ι α} {t u : ι} {i k : ℕ}
variable {a : Access} {q : Queue c α} {p p' : Pc c α} {spurious : Bool}

/-- How a move of thread t can change a slot: the thread claims it, or puts it to rest with a
later stamp. -/
def Ring.Changes (t : ι) (x y : Cell ι) : Prop :=
  (x.hold.holder = none ∧ y.hold.holder = some t) ∨
    (x.hold.holder = some t ∧ y.hold.holder = none ∧ x.version < y.version)

theorem Ring.cell_cases {x : Cell ι} (hCell : r'.cell = Function.update r.cell k x)
    (hChanges : Changes t (r.cell k) x) (i : ℕ) :
    r'.cell i = r.cell i ∨ Changes t (r.cell i) (r'.cell i) := by
  rw [hCell]
  obtain rfl | hne := eq_or_ne i k
  · rw [Function.update_self]
    exact .inr hChanges
  · exact .inl (Function.update_of_ne hne ..)

theorem Move.cell_cases (hMove : Move c t r p r' p') (i : ℕ) :
    r'.cell i = r.cell i ∨ Ring.Changes t (r.cell i) (r'.cell i) := by
  have hN := c.pos
  cases hMove with
  | claimPush f value tail hCell => exact Ring.cell_cases rfl (.inl ⟨by rw [hCell]; rfl, rfl⟩) i
  | claimForce value tail _ _ hCell =>
    exact Ring.cell_cases rfl (.inl ⟨by rw [hCell]; rfl, rfl⟩) i
  | claimPop head hCell => exact Ring.cell_cases rfl (.inl ⟨by rw [hCell]; rfl, rfl⟩) i
  | publish f tail k hCell =>
    refine Ring.cell_cases rfl (.inr ⟨by rw [hCell]; rfl, rfl, ?_⟩) i
    rw [hCell]
    exact Nat.lt_succ_self _
  | publishForce tail old k hCell =>
    refine Ring.cell_cases rfl (.inr ⟨by rw [hCell]; rfl, rfl, ?_⟩) i
    rw [hCell]
    simp only [Cell.version, Hold.bit]
    omega
  | release head msg k hCell =>
    refine Ring.cell_cases rfl (.inr ⟨by rw [hCell]; rfl, rfl, ?_⟩) i
    rw [hCell]
    simp only [Cell.version, Hold.bit]
    omega
  | _ => exact .inl rfl

theorem Local.foundVersion_le {v : ℕ} (h : Local c r q t k p) (hFound : p.foundVersion k = some v) :
    v ≤ (r.cell (k % c.N)).version := by
  cases p with
  | pushCas | popCas | popTail =>
    cases hFound
    exact h.2.2
  | fullLoad | forceCas =>
    cases hFound
    have hVersion := h.2.2
    omega
  | _ => cases hFound

theorem Represents.foundVersion_step (h : Represents m r)
    (hStep : (m.pc t).step m.queue spurious = some (a, q, p)) {v : ℕ}
    (hFound : p.foundVersion (m.note t p) = some v) : a = .loadStamp (m.note t p % c.N) := by
  have hLocal := h.locals t
  cases hPc : m.pc t with
  | idle | done => rw [hPc] at hStep; cases hStep
  | pushStamp f value tail =>
    rw [hPc] at hLocal
    obtain ⟨hWord, -⟩ := hLocal
    rw [hPc, Pc.step] at hStep
    rw [hWord, c.index_enc] at hStep
    split_ifs at hStep
    · cases hStep
      rfl
    · cases f <;> cases hStep <;> rfl
    · cases hStep
      cases hFound
  | popStamp head =>
    rw [hPc] at hLocal
    obtain ⟨hWord, -⟩ := hLocal
    rw [hPc, Pc.step] at hStep
    rw [hWord, c.index_enc] at hStep
    split_ifs at hStep
    · cases hStep
      rfl
    · cases hStep
      rfl
    · cases hStep
      cases hFound
  | pushCas | forceCas | popCas | fullLoad | popTail | lenCheck =>
    rw [hPc, Pc.step] at hStep
    split at hStep <;> cases hStep <;> cases hFound
  | _ =>
    rw [hPc] at hStep
    cases hStep
    cases hFound

theorem Pc.owns_of_action {q₀ : Queue c α} {p₀ : Pc c α}
    (hStep : p₀.step q₀ spurious = some (a, q, p))
    (hAction : a.action = .access i ∨ a.action = .release i) : p₀.owns = some i := by
  cases p₀ with
  | idle | done => cases hStep
  | pushWrite | forceReplace | popRead | pushPublish | forcePublish | popPublish =>
    cases hStep
    simpa [Access.action, Pc.owns] using hAction
  | pushCas | forceCas | popCas =>
    rw [Pc.step] at hStep
    split at hStep <;> cases hStep <;> simp [Access.action] at hAction
  | _ =>
    cases hStep
    simp [Access.action] at hAction

/-- A call claims the slot of its word, with the stamp that it has found there. -/
theorem Move.claimed [DecidableEq ι] (h' : Represents (m.access t a q p) r')
    (hMove : Move c t r (m.pc t) r' p) (hi : i < c.N) (hRest : (r.cell i).hold.holder = none)
    (hHeld : (r'.cell i).hold.holder = some t) :
    i = m.seen t % c.N ∧ (m.pc t).foundVersion (m.seen t) = some (r.cell i).version := by
  have hPc' : (m.access t a q p).pc t = p := Function.update_self ..
  have hNote : (m.access t a q p).seen t = m.note t p := Function.update_self ..
  have hOwns := h'.holder i hi t hHeld
  have hLocal := h'.locals t
  rw [hPc'] at hOwns hLocal
  rw [hNote] at hLocal
  generalize hPc : m.pc t = p₀ at hMove
  cases hMove with
  | claimPush f value tail hCell =>
    obtain ⟨hWord, hOwn, -⟩ := hLocal
    have hSeen : m.seen t = r.tail := congrArg Cell.pos
      (h'.held_unique hOwn (Ring.claimPush_cell_self r t value) rfl rfl)
    change tail = c.enc (m.seen t) at hWord
    rw [hWord, Pc.owns, c.index_enc] at hOwns
    cases hOwns
    rw [hSeen, hCell]
    exact ⟨rfl, rfl⟩
  | claimForce value tail _ _ hCell =>
    obtain ⟨k, hk, hWord, hOwn, -⟩ := hLocal
    have hSeen : k = r.head := congrArg Cell.pos
      (h'.held_unique hOwn (Ring.claimForce_cell_self r t value) rfl rfl)
    change m.seen t = k + c.N at hk
    change tail = c.enc (m.seen t) at hWord
    rw [hWord, Pc.owns, c.index_enc] at hOwns
    cases hOwns
    rw [hk, hSeen, Nat.add_mod_right, hCell]
    refine ⟨rfl, congrArg some ?_⟩
    simp only [Cell.version, Hold.bit]
    omega
  | claimPop head hCell =>
    obtain ⟨hWord, hOwn, -⟩ := hLocal
    have hSeen : m.seen t = r.head := congrArg Cell.pos
      (h'.held_unique hOwn (Ring.claimPop_cell_self r t) rfl rfl)
    change head = c.enc (m.seen t) at hWord
    rw [hWord, Pc.owns, c.index_enc] at hOwns
    cases hOwns
    rw [hSeen, hCell]
    exact ⟨rfl, rfl⟩
  | publish f tail k =>
    cases hOwns
  | publishForce tail old k =>
    cases hOwns
  | release head msg k =>
    cases hOwns
  | _ => cases hRest.symm.trans hHeld

end Cells

/-- Who has seen the accesses to the slots so far. -/
structure Ordered (m : Monitored c ι α) (r : Ring ι α) (tr : Trace ι ℕ ℕ) : Prop where
  raceFree : RaceFree tr
  rest : ∀ i < c.N, (r.cell i).hold.holder = none → ∀ j, Accesses tr i j → Published tr i j
  held : ∀ i < c.N, ∀ t, (r.cell i).hold.holder = some t → ∀ j, Accesses tr i j → Known tr t j
  found : ∀ t, (r.cell (m.seen t % c.N)).hold.holder = none →
    (m.pc t).foundVersion (m.seen t) = some (r.cell (m.seen t % c.N)).version →
    ∀ j, Accesses tr (m.seen t % c.N) j → Known tr t j

section Step

variable {m : Monitored c ι α} {r r' : Ring ι α} {t : ι} {tr : Trace ι ℕ ℕ}
variable {a : Access} {q : Queue c α} {p : Pc c α} {spurious : Bool}

theorem Ordered.new (c : Config) (ι : Type v) (α : Type u) :
    Ordered (Monitored.new c ι α) (Ring.start ι α) [] where
  raceFree := .nil
  rest i _ _ j hj := absurd hj.lt (Nat.not_lt_zero j)
  held i _ t hHeld := by cases hHeld
  found t _ hFound := by cases hFound

variable [DecidableEq ι]

theorem Ordered.repoint (hOrder : Ordered m r tr) (hp : p.foundVersion (m.seen t) = none) :
    Ordered { m with pc := Function.update m.pc t p } r tr where
  raceFree := hOrder.raceFree
  rest := hOrder.rest
  held := hOrder.held
  found := by
    intro u hRest hFound
    obtain rfl | hu := eq_or_ne u t
    · simp only [Function.update_self] at hFound
      cases hp.symm.trans hFound
    · simp only [Function.update_of_ne hu] at hFound
      exact hOrder.found u hRest hFound

theorem Ordered.access (hOrder : Ordered m r tr) (h : Represents m r)
    (hStep : (m.pc t).step m.queue spurious = some (a, q, p))
    (h' : Represents (m.access t a q p) r') (hMove : Move c t r (m.pc t) r' p) :
    Ordered (m.access t a q p) r' (tr ++ [⟨t, a.action⟩]) := by
  have hPc' : (m.access t a q p).pc t = p := Function.update_self ..
  -- the thread accesses, or stores the stamp of, only the slot that it holds
  have hHolds : ∀ i, a.action = .access i ∨ a.action = .release i →
      (r.cell i).hold.holder = some t := fun i hAction =>
    (h.owner (Pc.owns_of_action hStep hAction)).2
  have hSettles : ∀ i < c.N, (r.cell i).hold.holder = some t → (r'.cell i).hold.holder = none →
      a = .storeStamp i := by
    intro i hi hHeld hRest
    have hOwned := h.holder i hi t hHeld
    obtain hSame | ⟨hNone, -⟩ | ⟨j, hj, hStore, -⟩ := Pc.owns_step hStep
    · have hOwns : ((m.access t a q p).pc t).owns = some i := by rw [hPc', hSame, hOwned]
      cases hRest.symm.trans (h'.owner hOwns).2
    · cases hNone.symm.trans hOwned
    · cases hOwned.symm.trans hj
      exact hStore
  have hSeen : ∀ i < c.N, ∀ j, Accesses (tr ++ [⟨t, a.action⟩]) i j → Accesses tr i j ∨
      (j = tr.length ∧ (r.cell i).hold.holder = some t) := by
    intro i _ j hj
    exact hj.of_snoc.imp_right fun ⟨hLast, hAction⟩ => ⟨hLast, hHolds i (.inl hAction)⟩
  constructor
  · refine hOrder.raceFree.snoc a.action ?_
    intro i hAction j hj
    obtain ⟨hi, hHeld⟩ := h.owner (Pc.owns_of_action hStep (.inl hAction))
    exact hOrder.held i hi t hHeld j hj
  · intro i hi hRest' j hj
    obtain hSame | ⟨-, hHeld'⟩ | ⟨hHeld, -, -⟩ := hMove.cell_cases i
    · rw [hSame] at hRest'
      obtain hj | ⟨-, hHeld⟩ := hSeen i hi j hj
      · refine (hOrder.rest i hi hRest' j hj).snoc ?_
        intro hAction
        cases hRest'.symm.trans (hHolds i (.inr hAction))
      · cases hRest'.symm.trans hHeld
    · cases hRest'.symm.trans hHeld'
    · cases hSettles i hi hHeld hRest'
      obtain hj | ⟨-, hAction⟩ := hj.of_snoc
      · exact (hOrder.held i hi t hHeld j hj).release i
      · cases hAction
  · intro i hi u hHeld' j hj
    obtain hSame | ⟨hRest, hClaimed⟩ | ⟨-, hRest', -⟩ := hMove.cell_cases i
    · rw [hSame] at hHeld'
      obtain hj | ⟨rfl, hHeld⟩ := hSeen i hi j hj
      · exact (hOrder.held i hi u hHeld' j hj).snoc _
      · cases hHeld'.symm.trans hHeld
        exact Known.self tr t a.action
    · cases hHeld'.symm.trans hClaimed
      obtain ⟨hSlot, hFound⟩ := hMove.claimed h' hi hRest hClaimed
      obtain hj | ⟨-, hHeld⟩ := hSeen i hi j hj
      · rw [hSlot] at hRest hFound hj
        exact (hOrder.found t hRest hFound j hj).snoc _
      · cases hRest.symm.trans hHeld
    · cases hHeld'.symm.trans hRest'
  · intro u hRest' hFound' j hj
    have hSlot := mod_lt c ((m.access t a q p).seen u)
    obtain rfl | hu := eq_or_ne u t
    · rw [hPc'] at hFound'
      have hNote : (m.access u a q p).seen u = m.note u p := Function.update_self ..
      rw [hNote] at hRest' hFound' hj hSlot
      cases h.foundVersion_step hStep hFound'
      obtain hj | ⟨-, hAction⟩ := hj.of_snoc
      · obtain hSame | ⟨-, hHeld'⟩ | ⟨hHeld, hRest, -⟩ := hMove.cell_cases (m.note u p % c.N)
        · rw [hSame] at hRest'
          exact (hOrder.rest _ hSlot hRest' j hj).acquire u
        · cases hRest'.symm.trans hHeld'
        · cases hSettles _ hSlot hHeld hRest
      · cases hAction
    · have hOld : (m.access t a q p).pc u = m.pc u ∧ (m.access t a q p).seen u = m.seen u := by
        simp [Monitored.access, hu]
      rw [hOld.2] at hRest' hFound' hj hSlot
      rw [hOld.1] at hFound'
      -- the stamp is still the one that was found, so the slot has not changed hands
      have hVersion := (h.locals u).foundVersion_le hFound'
      obtain hSame | ⟨-, hHeld'⟩ | ⟨-, -, hLater⟩ := hMove.cell_cases (m.seen u % c.N)
      · rw [hSame] at hRest' hFound'
        obtain hj | ⟨-, hHeld⟩ := hSeen _ hSlot j hj
        · exact (hOrder.found u hRest' hFound' j hj).snoc _
        · cases hRest'.symm.trans hHeld
      · cases hRest'.symm.trans hHeld'
      · omega

end Step

section Runs

variable [DecidableEq ι] [DecidableEq α]

theorem Monitored.TimelyRun.ordered {m : Monitored c ι α} {labels : List (Label ι α)}
    (hRun : (Monitored.new c ι α).TimelyRun labels m) :
    ∃ r, Represents m r ∧ Ordered m r ((System.new c ι α).trace labels) := by
  refine Runs.exec_induction (P := fun labels m => ∃ r, Represents m r ∧
    Ordered m r ((System.new c ι α).trace labels)) ⟨_, Represents.new c ι α, Ordered.new c ι α⟩
    ?_ labels m hRun
  rintro labels m l m' hLabels ⟨r, h, hOrder⟩ hStep
  have hTrace := System.trace_snoc (s := .new c ι α) (TimelyRun.toSystem hLabels) l
  rw [hTrace]
  obtain ⟨t, op, rfl, hIdle, rfl⟩ |
    ⟨t, spurious, a, q, p, rfl, hTimely, hAccess, rfl⟩ | ⟨t, x, rfl, hDone, rfl⟩ :=
      timelyStep_cases hStep
  · rw [System.event?, Option.toList_none, List.append_nil]
    exact ⟨r, h.call hIdle op, hOrder.repoint (by cases op <;> rfl)⟩
  · obtain ⟨r', h', hMove⟩ := h.advances hTimely hAccess
    rw [System.event?, hAccess, Option.map_some, Option.toList_some]
    exact ⟨r', h', hOrder.access h hAccess h' hMove⟩
  · rw [System.event?, Option.toList_none, List.append_nil]
    exact ⟨r, h.ret hDone, hOrder.repoint rfl⟩

/-- In every timely run any two accesses to the value of one slot are ordered by the acquire
loads and release stores of stamps. -/
theorem slot_values_race_free {m : Monitored c ι α} {labels : List (Label ι α)}
    (hRun : (Monitored.new c ι α).TimelyRun labels m) :
    RaceFree ((System.new c ι α).trace labels) := by
  obtain ⟨r, -, hOrder⟩ := hRun.ordered
  exact hOrder.raceFree

theorem slot_values_race_free_forceThenPop :
    RaceFree ((System.new .one (Fin 2) ℕ).trace forceThenPop) :=
  slot_values_race_free
    (m := (Runs.exec Monitored.timelyStep (.new .one (Fin 2) ℕ) forceThenPop).get (by decide))
    (Option.some_get _).symm

end Runs

end NureQueue
