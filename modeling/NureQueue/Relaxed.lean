import NureQueue.Overlap

/-! # Loads that return old values

The loads at the start of a round and those of a failed exchange are `Relaxed`, and those of
stamps are `Acquire`: here each of them may return what its location held at any earlier
moment, with no order between what the loads of one thread return. The exchanges that succeed
and the stores act on memory as it is, in the order of the labels. So do the other loads, which
are `SeqCst` or come after a `SeqCst` fence: all that writes head or tail is `SeqCst` as well.
-/

namespace NureQueue

open Linearizability HappensBefore

universe u v

variable {c : Config} {ι : Type v} {α : Type u}

namespace Pc

/-- The next access loads with `Relaxed` or `Acquire` ordering and no fence before it, or does
so if its exchange fails. -/
def mayReadOld : Pc c α → Bool
  | .pushLoad .. | .pushStamp .. | .pushCas .. | .popLoad | .popStamp _ | .popCas _ => true
  | _ => false

end Pc

/-- Memory at an earlier moment, with the moves of head and tail and the number of accesses
that had been made by then. -/
structure Memory (c : Config) (α : Type u) where
  queue : Queue c α
  moves : Word → ℕ
  length : ℕ

namespace Memory

/-- What a load from older memory orders. If the stamp has been stored again since, the load
reads from a store that is not the last one; the edge from that store is left out. -/
def action (x : Memory c α) (tr : Trace ι ℕ ℕ) (a : Access) :
    HappensBefore.Action ℕ ℕ :=
  match a.action with
  | .acquire i => if ∀ e ∈ tr.drop x.length, e.action ≠ .release i then .acquire i else .other
  | _ => .other

def note (x : Memory c α) (seen : ℕ) (p : Pc c α) : ℕ :=
  match p.loaded with
  | some w => x.moves w
  | none => seen

end Memory

inductive RelaxedLabel (ι : Type v) (α : Type u) where
  | now (l : Label ι α)
  /-- Thread t loads from memory i of the past; if its access is an exchange, this fails. -/
  | old (t : ι) (i : ℕ)
  deriving DecidableEq

def RelaxedLabel.now? : RelaxedLabel ι α → Option (Label ι α)
  | .now l => some l
  | .old _ _ => none

/-- A monitored system with the trace of its accesses and all that memory has been. -/
structure Relaxed (c : Config) (ι : Type v) (α : Type u) extends Monitored c ι α where
  trace : Trace ι ℕ ℕ
  past : List (Memory c α)

namespace Relaxed

def new (c : Config) (ι : Type v) (α : Type u) : Relaxed c ι α where
  toMonitored := Monitored.new c ι α
  trace := []
  past := []

def memory (m : Relaxed c ι α) : Memory c α := ⟨m.queue, m.moves, m.trace.length⟩

/-- Memory x is less than K/2 moves old, of the index that the access of thread t is about. -/
def Young (m : Relaxed c ι α) (t : ι) (x : Memory c α) : Prop :=
  ∀ w ∈ (m.pc t).uses, m.moves w < x.moves w + c.K / 2

instance (m : Relaxed c ι α) (t : ι) (x : Memory c α) : Decidable (m.Young t x) :=
  inferInstanceAs (Decidable (∀ w ∈ (m.pc t).uses, m.moves w < x.moves w + c.K / 2))

/-- The timing assumption, for the word in the locals and for the memory that is read. -/
def Timely (m : Relaxed c ι α) : RelaxedLabel ι α → Prop
  | .now (.step t _) => m.toMonitored.Timely t
  | .now (.call _ _) | .now (.ret _ _) => True
  | .old t i => m.toMonitored.Timely t ∧ ∀ x ∈ m.past[i]?, m.Young t x

instance (m : Relaxed c ι α) : DecidablePred m.Timely
  | .now (.step t _) => inferInstanceAs (Decidable (m.toMonitored.Timely t))
  | .now (.call _ _) | .now (.ret _ _) => .isTrue trivial
  | .old t i =>
    inferInstanceAs (Decidable (m.toMonitored.Timely t ∧ ∀ x ∈ m.past[i]?, m.Young t x))

variable [DecidableEq ι]

def load (m : Relaxed c ι α) (t : ι) (x : Memory c α) (a : Access) (p : Pc c α) :
    Relaxed c ι α where
  queue := m.queue
  pc := Function.update m.pc t p
  moves := m.moves
  seen := Function.update m.seen t (x.note (m.seen t) p)
  trace := m.trace ++ [⟨t, x.action m.trace a⟩]
  past := m.past

variable [DecidableEq α]

def next (m : Relaxed c ι α) (l : Label ι α) (m' : Monitored c ι α) : Relaxed c ι α where
  toMonitored := m'
  trace := m.trace ++ (m.toSystem.event? l).toList
  past := m.past ++ [m.memory]

/-- One label, where the loads at some points may be old. -/
def step (old : Pc c α → Bool) (m : Relaxed c ι α) : RelaxedLabel ι α → Option (Relaxed c ι α)
  | .now l => (m.toMonitored.step l).map (m.next l)
  | .old t i =>
    if old (m.pc t) then
      m.past[i]?.bind fun x =>
        ((m.pc t).step x.queue true).map fun (a, _, p) => m.load t x a p
    else none

def timelyStep (m : Relaxed c ι α) (l : RelaxedLabel ι α) : Option (Relaxed c ι α) :=
  if m.Timely l then m.step Pc.mayReadOld l else none

theorem step_cases {old : Pc c α → Bool} {m m' : Relaxed c ι α} {l : RelaxedLabel ι α}
    (hStep : m.step old l = some m') :
    (∃ l' m₁, l = .now l' ∧ m.toMonitored.step l' = some m₁ ∧ m' = m.next l' m₁) ∨
    (∃ t i x a q p, l = .old t i ∧ old (m.pc t) = true ∧ m.past[i]? = some x ∧
      (m.pc t).step x.queue true = some (a, q, p) ∧ m' = m.load t x a p) := by
  cases l with
  | now l' =>
    obtain ⟨m₁, hNow, rfl⟩ := Option.map_eq_some_iff.mp hStep
    exact .inl ⟨l', m₁, rfl, hNow, rfl⟩
  | old t i =>
    simp only [step] at hStep
    split at hStep
    · rename_i hOld
      obtain ⟨x, hPast, hLoad⟩ := Option.bind_eq_some_iff.mp hStep
      obtain ⟨⟨a, q, p⟩, hAccess, rfl⟩ := Option.map_eq_some_iff.mp hLoad
      exact .inr ⟨t, i, x, a, q, p, rfl, hOld, hPast, hAccess, rfl⟩
    · cases hStep

theorem timelyStep_cases {m m' : Relaxed c ι α} {l : RelaxedLabel ι α}
    (hStep : m.timelyStep l = some m') :
    (∃ l' m₁, l = .now l' ∧ m.toMonitored.timelyStep l' = some m₁ ∧ m' = m.next l' m₁) ∨
    (∃ t i x a q p, l = .old t i ∧ (m.pc t).mayReadOld = true ∧ x ∈ m.past ∧
      m.toMonitored.Timely t ∧ m.Young t x ∧ (m.pc t).step x.queue true = some (a, q, p) ∧
      m' = m.load t x a p) := by
  rw [timelyStep] at hStep
  split at hStep
  · rename_i hTimely
    obtain ⟨l', m₁, rfl, hNow, rfl⟩ | ⟨t, i, x, a, q, p, rfl, hOld, hPast, hAccess, rfl⟩ :=
      step_cases hStep
    · refine .inl ⟨l', m₁, rfl, ?_, rfl⟩
      cases l' with
      | step t spurious => exact (if_pos hTimely).trans hNow
      | call t op | ret t x => exact hNow
    · exact .inr ⟨t, i, x, a, q, p, rfl, hOld, List.mem_of_getElem? hPast, hTimely.1,
        hTimely.2 x hPast, hAccess, rfl⟩
  · cases hStep

end Relaxed

/-- The memory x is that of the ring r₀, from which r has come with the trace since. -/
structure Earlier (r₀ r : Ring ι α) (tr : Trace ι ℕ ℕ) (x : Memory c α) : Prop where
  ok : r₀.Ok c.N
  mem : Mem c r₀ x.queue
  movesHead : x.moves .head = r₀.head
  movesTail : x.moves .tail = r₀.tail
  length : x.length ≤ tr.length
  head : r₀.head ≤ r.head
  tail : r₀.tail ≤ r.tail
  version : ∀ i, (r₀.cell i).version ≤ (r.cell i).version
  released : ∀ i, ∀ e ∈ tr.drop x.length, e.action = .release i →
    (r₀.cell i).version < (r.cell i).version

section Earlier

variable {m : Monitored c ι α} {r₀ r r' : Ring ι α} {t : ι} {tr : Trace ι ℕ ℕ} {x : Memory c α}
variable {a : Access} {q : Queue c α} {p : Pc c α} {spurious : Bool} {i : ℕ}

theorem Represents.earlier (h : Represents m r) (tr : Trace ι ℕ ℕ) :
    Earlier r r tr (⟨m.queue, m.moves, tr.length⟩ : Memory c α) where
  ok := h.ok
  mem := h.mem
  movesHead := h.head
  movesTail := h.tail
  length := Nat.le_refl _
  head := Nat.le_refl _
  tail := Nat.le_refl _
  version _ := Nat.le_refl _
  released i e he := by
    rw [List.drop_length] at he
    cases he

theorem Earlier.snoc (hEarlier : Earlier r₀ r tr x) {e : HappensBefore.Event ι ℕ ℕ} (hHead : r.head ≤ r'.head)
    (hTail : r.tail ≤ r'.tail) (hVersion : ∀ i, (r.cell i).version ≤ (r'.cell i).version)
    (hRelease : ∀ i, e.action = .release i → (r.cell i).version < (r'.cell i).version) :
    Earlier r₀ r' (tr ++ [e]) x where
  ok := hEarlier.ok
  mem := hEarlier.mem
  movesHead := hEarlier.movesHead
  movesTail := hEarlier.movesTail
  length := by
    rw [List.length_append]
    exact Nat.le_add_right_of_le hEarlier.length
  head := hEarlier.head.trans hHead
  tail := hEarlier.tail.trans hTail
  version i := (hEarlier.version i).trans (hVersion i)
  released := by
    intro i e' he' hAction
    rw [List.drop_append_of_le_length hEarlier.length] at he'
    obtain hOld | hNew := List.mem_append.mp he'
    · exact (hEarlier.released i e' hOld hAction).trans_le (hVersion i)
    · cases List.mem_singleton.mp hNew
      exact (hEarlier.version i).trans_lt (hRelease i hAction)

theorem Pc.owns_of_release {q₀ : Queue c α} {p₀ : Pc c α}
    (hStep : p₀.step q₀ spurious = some (a, q, p)) (hAction : a.action = .release i) :
    p.owns = none := by
  cases edge hStep <;> first | rfl | cases hAction

theorem Move.version_lt [DecidableEq ι] (h : Represents m r)
    (hStep : (m.pc t).step m.queue spurious = some (a, q, p))
    (h' : Represents (m.access t a q p) r') (hMove : Move c t r (m.pc t) r' p)
    (hAction : a.action = .release i) : (r.cell i).version < (r'.cell i).version := by
  obtain ⟨hi, hHeld⟩ := h.owner (Pc.owns_of_action hStep (.inr hAction))
  obtain hSame | ⟨hRest, -⟩ | ⟨-, -, hLater⟩ := hMove.cell_cases i
  · rw [← hSame] at hHeld
    have hOwns := h'.holder i hi t hHeld
    simp only [Monitored.access, Function.update_self] at hOwns
    cases (Pc.owns_of_release hStep hAction).symm.trans hOwns
  · cases hRest.symm.trans hHeld
  · exact hLater

theorem Earlier.move [DecidableEq ι] (hEarlier : Earlier r₀ r tr x) (h : Represents m r)
    (hStep : (m.pc t).step m.queue spurious = some (a, q, p))
    (h' : Represents (m.access t a q p) r') (hMove : Move c t r (m.pc t) r' p) :
    Earlier r₀ r' (tr ++ [⟨t, a.action⟩]) x := by
  have hHead := h'.head
  have hTail := h'.tail
  simp only [Monitored.access, h.head, h.tail] at hHead hTail
  exact hEarlier.snoc (by omega) (by omega) hMove.version
    fun _ hAction => hMove.version_lt h hStep h' hAction

end Earlier

/-- What a call that is not yet decided has after a load from memory x: its locals fit the
ring as it is now, and a stamp that it has found is that of the earlier ring. -/
structure Loaded (m : Monitored c ι α) (r₀ r : Ring ι α) (t : ι) (k : ℕ) (a : Access)
    (p : Pc c α) : Prop where
  pending : ∃ o, (m.pc t).pending = some o ∧ p.pending = some o
  locals : Local c r m.queue t k p
  found : ∀ v, p.foundVersion k = some v →
    a = .loadStamp (k % c.N) ∧ v = (r₀.cell (k % c.N)).version

section Load

variable {m : Monitored c ι α} {r₀ r : Ring ι α} {t : ι} {tr : Trace ι ℕ ℕ} {x : Memory c α}
variable {a : Access} {q : Queue c α} {p : Pc c α}

theorem Earlier.loaded_tail (hEarlier : Earlier r₀ r tr x) :
    x.queue.tail = c.enc (x.moves .tail) ∧ x.moves .tail ≤ r.tail := by
  rw [hEarlier.movesTail]
  exact ⟨hEarlier.mem.tail, hEarlier.tail⟩

theorem Earlier.loaded_head (hEarlier : Earlier r₀ r tr x) :
    x.queue.head = c.enc (x.moves .head) ∧ x.moves .head ≤ r.head := by
  rw [hEarlier.movesHead]
  exact ⟨hEarlier.mem.head, hEarlier.head⟩

/-- The stamp of the slot of a tail word, read from earlier memory, says no more than what
holds now: the versions of a slot only grow. -/
theorem Represents.pushStamp_old (h : Represents m r) (hEarlier : Earlier r₀ r tr x)
    (hTimely : m.Timely t) (hYoung : m.moves .tail < x.moves .tail + c.K / 2) {f : Closure}
    {value : α} {tail : c.Index} (hPc : m.pc t = .pushStamp f value tail)
    (hStep : (m.pc t).step x.queue true = some (a, q, p)) :
    Loaded m r₀ r t (x.note (m.seen t) p) a p := by
  have hLocal := h.locals t
  have hNow := h.timely_tail hTimely (by rw [hPc]; rfl)
  have hBack := hEarlier.ok.tail_le
  have hFront := hEarlier.ok.head_le
  have hTail := hEarlier.tail
  have hVersion := hEarlier.version (m.seen t % c.N)
  have hPending : (m.pc t).pending = some (f.op value) := by rw [hPc]; rfl
  rw [hPc] at hLocal hStep
  obtain ⟨rfl, hk⟩ := hLocal
  rw [h.tail, hEarlier.movesTail] at hYoung
  have hWithin : Within c r₀ (m.seen t) := ⟨by omega, by omega⟩
  rw [Pc.step, hEarlier.mem.stamp_enc, c.index_enc] at hStep
  split_ifs at hStep with hFree hLap
  · cases hStep
    have hFound := hWithin.version_of_stamp hEarlier.ok hFree.symm
    refine ⟨⟨_, hPending, rfl⟩, ⟨rfl, hk, hFound ▸ hVersion⟩, ?_⟩
    intro v hv
    cases hv
    exact ⟨rfl, hFound.symm⟩
  · have hFound := hWithin.version_of_stamp_lap hEarlier.ok hLap
    cases f with
    | push | forcePush =>
      cases hStep
      refine ⟨⟨_, hPending, rfl⟩, ⟨rfl, hk, hFound ▸ Nat.add_le_add_right hVersion _⟩, ?_⟩
      intro v hv
      cases hv
      exact ⟨rfl, Nat.sub_eq_of_eq_add hFound.symm⟩
  · cases hStep
    exact ⟨⟨_, hPending, rfl⟩, trivial, fun v hv => by cases hv⟩

theorem Represents.popStamp_old (h : Represents m r) (hEarlier : Earlier r₀ r tr x)
    (hTimely : m.Timely t) (hYoung : m.moves .head < x.moves .head + c.K / 2)
    {head : c.Index} (hPc : m.pc t = .popStamp head)
    (hStep : (m.pc t).step x.queue true = some (a, q, p)) :
    Loaded m r₀ r t (x.note (m.seen t) p) a p := by
  have hLocal := h.locals t
  have hNow := h.timely_head hTimely (by rw [hPc]; rfl)
  have hHead := hEarlier.head
  have hVersion := hEarlier.version (m.seen t % c.N)
  have hPending : (m.pc t).pending = some .pop := by rw [hPc]; rfl
  rw [hPc] at hLocal hStep
  obtain ⟨rfl, hk⟩ := hLocal
  rw [h.head, hEarlier.movesHead] at hYoung
  have hWithin : Within c r₀ (m.seen t) := ⟨by omega, by omega⟩
  rw [Pc.step, hEarlier.mem.stamp_enc, c.index_enc] at hStep
  split_ifs at hStep with hStored hFree
  · cases hStep
    have hFound := hWithin.version_of_stamp_succ hEarlier.ok hStored.symm
    refine ⟨⟨_, hPending, rfl⟩, ⟨rfl, hk, hFound ▸ hVersion⟩, ?_⟩
    intro v hv
    cases hv
    exact ⟨rfl, hFound.symm⟩
  · cases hStep
    have hFound := hWithin.version_of_stamp hEarlier.ok hFree
    refine ⟨⟨_, hPending, rfl⟩, ⟨rfl, hk, hFound ▸ hVersion⟩, ?_⟩
    intro v hv
    cases hv
    exact ⟨rfl, hFound.symm⟩
  · cases hStep
    exact ⟨⟨_, hPending, rfl⟩, trivial, fun v hv => by cases hv⟩

theorem Represents.loaded (h : Represents m r) (hEarlier : Earlier r₀ r tr x)
    (hOld : (m.pc t).mayReadOld = true) (hTimely : m.Timely t)
    (hYoung : ∀ w ∈ (m.pc t).uses, m.moves w < x.moves w + c.K / 2)
    (hStep : (m.pc t).step x.queue true = some (a, q, p)) :
    Loaded m r₀ r t (x.note (m.seen t) p) a p := by
  cases hPc : m.pc t with
  | pushLoad f value =>
    rw [hPc] at hStep
    cases hStep
    exact ⟨⟨_, by rw [hPc]; rfl, rfl⟩, hEarlier.loaded_tail, fun v hv => by cases hv⟩
  | pushStamp f value tail =>
    exact h.pushStamp_old hEarlier hTimely (hYoung .tail (by rw [hPc]; rfl)) hPc hStep
  | pushCas f value tail =>
    rw [hPc, Pc.step, if_neg (by simp)] at hStep
    cases hStep
    exact ⟨⟨_, by rw [hPc]; rfl, rfl⟩, hEarlier.loaded_tail, fun v hv => by cases hv⟩
  | popLoad =>
    rw [hPc] at hStep
    cases hStep
    exact ⟨⟨_, by rw [hPc]; rfl, rfl⟩, hEarlier.loaded_head, fun v hv => by cases hv⟩
  | popStamp head =>
    exact h.popStamp_old hEarlier hTimely (hYoung .head (by rw [hPc]; rfl)) hPc hStep
  | popCas head =>
    rw [hPc, Pc.step, if_neg (by simp)] at hStep
    cases hStep
    exact ⟨⟨_, by rw [hPc]; rfl, rfl⟩, hEarlier.loaded_head, fun v hv => by cases hv⟩
  | _ =>
    rw [hPc] at hOld
    cases hOld

end Load

section Reload

variable {m : Monitored c ι α} {r₀ r : Ring ι α} {t : ι} {k : ℕ}
variable {tr : Trace ι ℕ ℕ} {x : Memory c α} {a : Access} {p : Pc c α}

theorem Memory.action_cases (x : Memory c α) (tr : Trace ι ℕ ℕ) (a : Access) :
    x.action tr a = .other ∨ ∃ i, x.action tr a = .acquire i := by
  unfold Memory.action
  split
  · split
    · exact .inr ⟨_, rfl⟩
    · exact .inl rfl
  · exact .inl rfl

theorem Memory.action_ne_release (x : Memory c α) (tr : Trace ι ℕ ℕ) (a : Access) (i : ℕ) :
    x.action tr a ≠ .release i := by
  obtain hAction | ⟨j, hAction⟩ := x.action_cases tr a
  · rw [hAction]
    nofun
  · rw [hAction]
    nofun

theorem Memory.action_ne_access (x : Memory c α) (tr : Trace ι ℕ ℕ) (a : Access) (i : ℕ) :
    x.action tr a ≠ .access i := by
  obtain hAction | ⟨j, hAction⟩ := x.action_cases tr a
  · rw [hAction]
    nofun
  · rw [hAction]
    nofun

theorem Earlier.action_loadStamp (hEarlier : Earlier r₀ r tr x) {i : ℕ}
    (hSame : (r.cell i).version = (r₀.cell i).version) :
    x.action tr (.loadStamp i) = .acquire i := by
  refine if_pos ?_
  intro e he hAction
  have hLater := hEarlier.released i e he hAction
  omega

variable [DecidableEq ι]

theorem Represents.reload (h : Represents m r) (hLoaded : Loaded m r₀ r t k a p) :
    Represents { m with
      pc := Function.update m.pc t p
      seen := Function.update m.seen t k } r := by
  obtain ⟨o, hPending, -⟩ := hLoaded.pending
  have hOwns := Pc.owns_of_pending hPending
  constructor
  · exact h.ok
  · exact h.head
  · exact h.tail
  · exact h.mem
  · intro u
    obtain rfl | hu := eq_or_ne u t
    · simpa using hLoaded.locals
    · simpa [hu] using h.locals u
  · intro i hi u hHeld
    obtain rfl | hu := eq_or_ne u t
    · exact absurd hHeld (h.holder_ne hOwns i hi)
    · simpa [hu] using h.holder i hi u hHeld
  · intro u hHalf
    obtain rfl | hu := eq_or_ne u t
    · exact absurd hHalf (h.half_ne hOwns)
    · simpa [hu] using h.half u hHalf

theorem Ordered.load (hOrder : Ordered m r tr) (hEarlier : Earlier r₀ r tr x)
    (hLoaded : Loaded m r₀ r t k a p) :
    Ordered { m with
      pc := Function.update m.pc t p
      seen := Function.update m.seen t k } r (tr ++ [⟨t, x.action tr a⟩]) := by
  have hSeen : ∀ i j, Accesses (tr ++ [⟨t, x.action tr a⟩]) i j → Accesses tr i j := by
    intro i j hj
    obtain hOld | ⟨-, hNew⟩ := hj.of_snoc
    · exact hOld
    · exact absurd hNew (x.action_ne_access tr a i)
  constructor
  · exact hOrder.raceFree.snoc _ fun i hAction => absurd hAction (x.action_ne_access tr a i)
  · intro i hi hRest j hj
    exact (hOrder.rest i hi hRest j (hSeen i j hj)).snoc (x.action_ne_release tr a i)
  · intro i hi u hHeld j hj
    exact (hOrder.held i hi u hHeld j (hSeen i j hj)).snoc _
  · intro u hRest hFound j hj
    obtain rfl | hu := eq_or_ne u t
    · simp only [Function.update_self] at hRest hFound hj
      obtain ⟨rfl, hVersion⟩ := hLoaded.found _ hFound
      rw [hEarlier.action_loadStamp hVersion]
      exact (hOrder.rest _ (mod_lt c k) hRest j (hSeen _ j hj)).acquire u
    · simp only [Function.update_of_ne hu] at hRest hFound hj
      exact (hOrder.found u hRest hFound j (hSeen _ j hj)).snoc _

end Reload

end NureQueue
