import Mathlib.Algebra.Order.BigOperators.Group.Finset
import Mathlib.Data.List.Infix
import NureQueue.Accounting
import NureQueue.Plain

/-! # Clients that never see a full or an empty queue

A thread that pushes only what it holds never sees a full queue, when all that is stored
or held at the start fits; a thread that pops only what it has pushed never sees an empty
one. Both follow from one balance: what has been claimed from the ring and from it is what
has been returned to the threads, up to the calls that are in flight.
-/

namespace NureQueue

universe u v

variable {c : Config} {ι : Type v} {α : Type u}

section Labels

variable [DecidableEq ι] (t : ι)

def Label.pushed? : Label ι α → Option α
  | .call u (.push value) => if u = t then some value else none
  | _ => none

def Label.popped? : Label ι α → Option (MaybeUninit α)
  | .ret u (.pop (some msg)) => if u = t then some msg else none
  | _ => none

def pushedBy (labels : List (Label ι α)) : List α := labels.filterMap (Label.pushed? t)

def poppedBy (labels : List (Label ι α)) : List (MaybeUninit α) :=
  labels.filterMap (Label.popped? t)

def Label.accepted : Label ι α → ℕ
  | .ret u .pushOk => if u = t then 1 else 0
  | _ => 0

def acceptedOf (labels : List (Label ι α)) : ℕ := (labels.map (Label.accepted t)).sum

@[simp] theorem pushedBy_snoc (labels : List (Label ι α)) (l : Label ι α) :
    pushedBy t (labels ++ [l]) = pushedBy t labels ++ (l.pushed? t).toList := by
  rw [pushedBy, List.filterMap_append]
  cases h : l.pushed? t <;> simp [h, pushedBy]

@[simp] theorem poppedBy_snoc (labels : List (Label ι α)) (l : Label ι α) :
    poppedBy t (labels ++ [l]) = poppedBy t labels ++ (l.popped? t).toList := by
  rw [poppedBy, List.filterMap_append]
  cases h : l.popped? t <;> simp [h, poppedBy]

@[simp] theorem acceptedOf_snoc (labels : List (Label ι α)) (l : Label ι α) :
    acceptedOf t (labels ++ [l]) = acceptedOf t labels + l.accepted t := by
  simp [acceptedOf]

/-- A thread pushes only values that it held at the start or that its pops have returned
to it, each at most once for each time. -/
def PushesHeld (held : ι → Multiset α) (labels : List (Label ι α)) : Prop :=
  ∀ t, ∀ before ∈ labels.inits, ((pushedBy t before : Multiset α).map some : Contents α) ≤
    (held t).map some + (poppedBy t before : Contents α)

/-- A thread starts a pop only when its pushes that have succeeded outnumber its pops that
have returned a value. -/
def PopsCovered (labels : List (Label ι α)) : Prop :=
  ∀ t, ∀ before ∈ labels.inits, before ++ [.call t .pop] <+: labels →
    (poppedBy t before).length < acceptedOf t before

end Labels

namespace Pc

/-- A push that has its place in the ring and has not returned. -/
def puts : Pc c α → ℕ
  | .pushWrite .. | .pushPublish .. | .done .pushOk => 1
  | _ => 0

/-- A pop that has taken its place from the ring and has not returned. -/
def takes : Pc c α → ℕ
  | .popRead _ | .popPublish .. | .done (.pop (some _)) => 1
  | _ => 0

def inPush : Pc c α → ℕ
  | .pushLoad .. | .pushStamp .. | .pushCas .. | .pushWrite .. | .pushPublish .. | .fullLoad ..
  | .done .pushOk | .done (.pushErr _) => 1
  | _ => 0

def inPop : Pc c α → ℕ
  | .popLoad | .popStamp _ | .popCas _ | .popRead _ | .popPublish .. | .popTail _
  | .done (.pop _) => 1
  | _ => 0

theorem puts_le (p : Pc c α) : p.puts ≤ p.inPush := by
  cases p with
  | done r => cases r <;> simp [puts, inPush]
  | _ => simp [puts, inPush]

theorem takes_le (p : Pc c α) : p.takes ≤ p.inPop := by
  cases p with
  | done r =>
    cases r with
    | pop msg => cases msg <;> simp [takes, inPop]
    | _ => simp [takes, inPop]
  | _ => simp [takes, inPop]

theorem flight_of_pending {p : Pc c α} {o : Op α} (h : p.pending = some o)
    (hForces : ¬ p.forces) : p.puts = 0 ∧ p.takes = 0 ∧
      p.inPush = (o.start : Pc c α).inPush ∧ p.inPop = (o.start : Pc c α).inPop := by
  cases p with
  | pushLoad f | pushStamp f | pushCas f =>
    cases f with
    | push =>
      cases h
      exact ⟨rfl, rfl, rfl, rfl⟩
    | forcePush => exact absurd rfl hForces
  | forceCas => exact absurd trivial hForces
  | idle | done | pushWrite | pushPublish | forceStore | forceReplace | forcePublish | popRead
  | popPublish => cases h
  | _ =>
    cases h
    exact ⟨rfl, rfl, rfl, rfl⟩

end Pc

section Moves

variable {r r' : Ring ι α} {t : ι} {p p' : Pc c α}

/-- What a move claims in the ring is what it adds to the calls in flight. -/
theorem Move.balance (hMove : Move c t r p r' p') (hBefore : ¬ p.forces) (hAfter : ¬ p'.forces) :
    r'.tail + p'.takes + (r.head + p.puts) = r.tail + p.takes + (r'.head + p'.puts) ∧
      p'.inPush = p.inPush ∧ p'.inPop = p.inPop := by
  cases hMove with
  | retry o hp hp' =>
    obtain ⟨hPuts, hTakes, hPush, hPop⟩ := Pc.flight_of_pending hp hBefore
    obtain ⟨hPuts', hTakes', hPush', hPop'⟩ := Pc.flight_of_pending hp' hAfter
    rw [hPuts, hTakes, hPush, hPop, hPuts', hTakes', hPush', hPop']
    exact ⟨rfl, rfl, rfl⟩
  | claimForce | storeTail | replace | publishForce => exact absurd trivial hBefore
  | publish f =>
    cases f with
    | push => exact ⟨rfl, rfl, rfl⟩
    | forcePush => exact absurd rfl hBefore
  | claimPush f =>
    refine ⟨?_, rfl, rfl⟩
    simp only [Ring.claimPush, Pc.takes, Pc.puts]
    omega
  | claimPop =>
    refine ⟨?_, rfl, rfl⟩
    simp only [Ring.claimPop, Pc.takes, Pc.puts]
    omega
  | _ => exact ⟨rfl, rfl, rfl⟩

theorem Move.of_pushErr {value : α} (hMove : Move c t r p r' (.done (.pushErr value))) :
    r.tail = r.head + c.N ∧ p.puts = 0 ∧ p.inPush = 1 := by
  generalize hp : (Pc.done (.pushErr value) : Pc c α) = p' at hMove
  cases hMove with
  | retry o _ hp' =>
    subst hp
    cases hp'
  | publish f => cases f <;> cases hp
  | full _ _ hFull => exact ⟨hFull, rfl, rfl⟩
  | _ => cases hp

theorem Move.of_popNone (hMove : Move c t r p r' (.done (.pop none))) :
    r.head = r.tail ∧ p.takes = 0 ∧ p.inPop = 1 := by
  generalize hp : (Pc.done (.pop none) : Pc c α) = p' at hMove
  cases hMove with
  | retry o _ hp' =>
    subst hp
    cases hp'
  | publish f => cases f <;> cases hp
  | empty _ hEmpty => exact ⟨hEmpty, rfl, rfl⟩
  | _ => cases hp

end Moves

section Runs

variable [Fintype ι] [DecidableEq ι]

/-- The balance after the labels, from a start with n elements: what the pops have taken and
what is in the ring are what the pushes have put there and what was there. -/
structure Balanced (n : ℕ) (labels : List (Label ι α)) (m : Monitored c ι α) : Prop where
  ring : ∃ r, Plain m r ∧ r.tail + ∑ u, ((poppedBy u labels).length + (m.pc u).takes) =
    r.head + n + ∑ u, (acceptedOf u labels + (m.pc u).puts)
  pushes : ∀ u, acceptedOf u labels + (m.pc u).inPush ≤ (pushedBy u labels).length

variable {m m' : Monitored c ι α} {n : ℕ} {labels : List (Label ι α)}

omit [Fintype ι] [DecidableEq ι] in
theorem start_flight (op : Op α) :
    (op.start : Pc c α).takes = 0 ∧ (op.start : Pc c α).puts = 0 := by
  cases op <;> exact ⟨rfl, rfl⟩

theorem Balanced.call (h : Balanced n labels m) {t : ι} (hIdle : m.pc t = .idle) {op : Op α}
    (hPlain : (Label.call t op).plain) : Balanced n (labels ++ [.call t op])
      { m with pc := Function.update m.pc t op.start } where
  ring := by
    obtain ⟨r, hRing, hSum⟩ := h.ring
    refine ⟨r, hRing.call hIdle hPlain, ?_⟩
    have hSame : ∀ u, (Function.update m.pc t op.start u).takes = (m.pc u).takes ∧
        (Function.update m.pc t op.start u).puts = (m.pc u).puts := by
      intro u
      obtain rfl | hu := eq_or_ne u t
      · rw [Function.update_self, hIdle]
        exact start_flight op
      · rw [Function.update_of_ne hu]
        exact ⟨rfl, rfl⟩
    simpa [hSame, Label.popped?, Label.accepted] using hSum
  pushes := by
    intro u
    have hPushes := h.pushes u
    obtain rfl | hu := eq_or_ne u t
    · rw [hIdle] at hPushes
      cases op with
      | forcePush => cases hPlain
      | push =>
        simpa [Label.pushed?, Label.accepted, Op.start, Pc.inPush] using hPushes
      | _ => simpa [Label.pushed?, Label.accepted, Op.start, Pc.inPush] using hPushes
    · simpa [Function.update_of_ne hu, Label.accepted] using hPushes.trans (Nat.le_add_right _ _)

omit [Fintype ι] in
theorem ret_tally {pc : ι → Pc c α} {t : ι} {x : Ret α} (hDone : pc t = .done x) (u : ι) :
    (poppedBy u (labels ++ [.ret t x])).length + (Function.update pc t .idle u).takes =
      (poppedBy u labels).length + (pc u).takes ∧
    acceptedOf u (labels ++ [.ret t x]) + (Function.update pc t .idle u).puts =
      acceptedOf u labels + (pc u).puts := by
  rw [poppedBy_snoc, acceptedOf_snoc, List.length_append]
  obtain rfl | hu := eq_or_ne u t
  · rw [Function.update_self, hDone]
    cases x with
    | pop msg => cases msg <;> simp [Label.popped?, Label.accepted, Pc.takes, Pc.puts]
    | _ => simp [Label.popped?, Label.accepted, Pc.takes, Pc.puts]
  · rw [Function.update_of_ne hu]
    cases x with
    | pop msg => cases msg <;> simp [Label.popped?, Label.accepted, hu.symm]
    | _ => simp [Label.popped?, Label.accepted, hu.symm]

omit [Fintype ι] in
theorem ret_pushes {pc : ι → Pc c α} {t : ι} {x : Ret α} (hDone : pc t = .done x) (u : ι) :
    acceptedOf u (labels ++ [.ret t x]) + (Function.update pc t .idle u).inPush ≤
      acceptedOf u labels + (pc u).inPush := by
  rw [acceptedOf_snoc]
  obtain rfl | hu := eq_or_ne u t
  · rw [Function.update_self, hDone]
    cases x <;> simp [Label.accepted, Pc.inPush]
  · rw [Function.update_of_ne hu]
    cases x <;> simp [Label.accepted, hu.symm]

theorem Balanced.ret (h : Balanced n labels m) {t : ι} {x : Ret α} (hDone : m.pc t = .done x) :
    Balanced n (labels ++ [.ret t x]) { m with pc := Function.update m.pc t .idle } where
  ring := by
    obtain ⟨r, hRing, hSum⟩ := h.ring
    refine ⟨r, hRing.ret hDone, ?_⟩
    rw [Finset.sum_congr rfl fun u _ => (ret_tally hDone u).1,
      Finset.sum_congr rfl fun u _ => (ret_tally hDone u).2]
    exact hSum
  pushes := by
    intro u
    have hPushed : pushedBy u (labels ++ [.ret t x]) = pushedBy u labels := by
      simp [Label.pushed?]
    rw [hPushed]
    exact (ret_pushes hDone u).trans (h.pushes u)

omit [Fintype ι] in
theorem step_tally (labels : List (Label ι α)) (t u : ι) (spurious : Bool) :
    pushedBy u (labels ++ [.step t spurious]) = pushedBy u labels ∧
    poppedBy u (labels ++ [.step t spurious]) = poppedBy u labels ∧
    acceptedOf u (labels ++ [.step t spurious]) = acceptedOf u labels := by
  simp [Label.pushed?, Label.popped?, Label.accepted]

theorem Balanced.access (h : Balanced n labels m) {t : ι} (hTimely : m.Timely t)
    {spurious : Bool} {a : Access} {q : Queue c α} {p : Pc c α}
    (hAccess : (m.pc t).step m.queue spurious = some (a, q, p)) :
    Balanced n (labels ++ [.step t spurious]) (m.access t a q p) := by
  obtain ⟨r, hRing, hSum⟩ := h.ring
  obtain ⟨r', hNext, hMove⟩ := hRing.access hTimely hAccess
  have hAfter := hNext.forces t
  have hSelf : (m.access t a q p).pc t = p := Function.update_self ..
  have hOther : ∀ u, u ≠ t → (m.access t a q p).pc u = m.pc u :=
    fun u hu => Function.update_of_ne hu ..
  rw [hSelf] at hAfter
  obtain ⟨hBalance, hInPush, -⟩ := hMove.balance (hRing.forces t) hAfter
  constructor
  · refine ⟨r', hNext, ?_⟩
    have hOut := sum_change (f := fun u => (poppedBy u labels).length + (m.pc u).takes)
      (g := fun u => (poppedBy u labels).length + ((m.access t a q p).pc u).takes) t
      fun u hu => by rw [hOther u hu]
    have hIn := sum_change (f := fun u => acceptedOf u labels + (m.pc u).puts)
      (g := fun u => acceptedOf u labels + ((m.access t a q p).pc u).puts) t
      fun u hu => by rw [hOther u hu]
    simp only [hSelf] at hOut hIn
    simp only [step_tally]
    omega
  · intro u
    obtain ⟨hPushed, -, hAccepted⟩ := step_tally labels t u spurious
    rw [hPushed, hAccepted]
    obtain rfl | hu := eq_or_ne u t
    · rw [hSelf, hInPush]
      exact h.pushes u
    · rw [hOther u hu]
      exact h.pushes u

theorem Balanced.not_full (h : Balanced n labels m) {held : ι → Multiset α}
    (hRoom : n + ∑ t, (held t).card ≤ c.N)
    (hHeld : ∀ t, ((pushedBy t labels : Multiset α).map some : Contents α) ≤
      (held t).map some + (poppedBy t labels : Contents α))
    {t : ι} (hTimely : m.Timely t) {spurious : Bool} {a : Access} {q : Queue c α} {value : α} :
    (m.pc t).step m.queue spurious ≠ some (a, q, .done (.pushErr value)) := by
  intro hAccess
  obtain ⟨r, hRing, hSum⟩ := h.ring
  obtain ⟨r', -, hMove⟩ := hRing.access hTimely hAccess
  obtain ⟨hFull, hPuts, hInPush⟩ := hMove.of_pushErr
  have hPushed : ∑ u, (acceptedOf u labels + (m.pc u).puts) <
      ∑ u, (pushedBy u labels).length := by
    apply Finset.sum_lt_sum
    · intro u _
      exact (Nat.add_le_add_left (m.pc u).puts_le _).trans (h.pushes u)
    · refine ⟨t, Finset.mem_univ t, ?_⟩
      have hPushes := h.pushes t
      omega
  have hCards : ∑ u, (pushedBy u labels).length ≤
      ∑ u, ((held u).card + (poppedBy u labels).length) := by
    apply Finset.sum_le_sum
    intro u _
    have hCard := Multiset.card_le_card (hHeld u)
    simpa using hCard
  have hTakes : ∑ u, (poppedBy u labels).length ≤
      ∑ u, ((poppedBy u labels).length + (m.pc u).takes) :=
    Finset.sum_le_sum fun u _ => Nat.le_add_right _ _
  rw [Finset.sum_add_distrib] at hCards
  omega

theorem Balanced.not_empty (h : Balanced n labels m)
    (hPops : ∀ u, (poppedBy u labels).length + (m.pc u).inPop ≤ acceptedOf u labels)
    {t : ι} (hTimely : m.Timely t) {spurious : Bool} {a : Access} {q : Queue c α} :
    (m.pc t).step m.queue spurious ≠ some (a, q, .done (.pop none)) := by
  intro hAccess
  obtain ⟨r, hRing, hSum⟩ := h.ring
  obtain ⟨r', -, hMove⟩ := hRing.access hTimely hAccess
  obtain ⟨hEmpty, hTakes, hInPop⟩ := hMove.of_popNone
  have hLess : ∑ u, ((poppedBy u labels).length + (m.pc u).takes) <
      ∑ u, (acceptedOf u labels + (m.pc u).puts) := by
    apply Finset.sum_lt_sum
    · intro u _
      have hPop := hPops u
      have hLe := (m.pc u).takes_le
      omega
    · refine ⟨t, Finset.mem_univ t, ?_⟩
      have hPop := hPops t
      omega
  omega

variable [DecidableEq α]

theorem Balanced.step (h : Balanced n labels m) {l : Label ι α} (hPlain : l.plain)
    (hStep : m.timelyStep l = some m') : Balanced n (labels ++ [l]) m' := by
  obtain ⟨t, op, rfl, hIdle, rfl⟩ |
    ⟨t, spurious, a, q, p, rfl, hTimely, hAccess, rfl⟩ | ⟨t, x, rfl, hDone, rfl⟩ :=
      Monitored.timelyStep_cases hStep
  · exact h.call hIdle hPlain
  · exact h.access hTimely hAccess
  · exact h.ret hDone

theorem Monitored.TimelyRun.balanced {m₀ : Monitored c ι α} (hReach : m₀.Reachable)
    (hQuiet : ∀ t, m₀.pc t = .idle) (hRun : m₀.TimelyRun labels m)
    (hPlain : ∀ l ∈ labels, l.plain) : Balanced m₀.queue.stored labels m := by
  refine Runs.exec_induction (P := fun labels m => (∀ l ∈ labels, l.plain) →
    Balanced m₀.queue.stored labels m) ?_ ?_ labels m hRun hPlain
  · intro _
    obtain ⟨r, h⟩ := hReach.represents
    obtain ⟨hRing, hRest⟩ := h.plain hQuiet
    have hHead := h.ok.head_le
    constructor
    · refine ⟨r, hRing, ?_⟩
      rw [hRest.stored_eq]
      simp [hQuiet, poppedBy, acceptedOf, Pc.takes, Pc.puts]
      omega
    · intro u
      simp [hQuiet, acceptedOf, Pc.inPush]
  · intro labels m l n _ ih hStep hPlain
    exact (ih fun l hl => hPlain l (List.mem_append_left _ hl)).step
      (hPlain l (by simp)) hStep

omit [Fintype ι] [DecidableEq α] in
theorem PopsCovered.of_isPrefix {before : List (Label ι α)} (h : PopsCovered labels)
    (hBefore : before <+: labels) : PopsCovered before := by
  intro t first hFirst hCall
  rw [List.mem_inits] at hFirst
  exact h t first ((List.mem_inits _ _).mpr (hFirst.trans hBefore)) (hCall.trans hBefore)

omit [Fintype ι] [DecidableEq α] in
theorem ret_pops {pc : ι → Pc c α} {t : ι} {x : Ret α} (hDone : pc t = .done x) (u : ι) :
    (poppedBy u (labels ++ [.ret t x])).length + (Function.update pc t .idle u).inPop ≤
      (poppedBy u labels).length + (pc u).inPop := by
  rw [poppedBy_snoc, List.length_append]
  obtain rfl | hu := eq_or_ne u t
  · rw [Function.update_self, hDone]
    cases x with
    | pop msg => cases msg <;> simp [Label.popped?, Pc.inPop]
    | _ => simp [Label.popped?, Pc.inPop]
  · rw [Function.update_of_ne hu]
    cases x with
    | pop msg => cases msg <;> simp [Label.popped?, hu.symm]
    | _ => simp [Label.popped?]

theorem Monitored.TimelyRun.pops {m₀ : Monitored c ι α} (hReach : m₀.Reachable)
    (hQuiet : ∀ t, m₀.pc t = .idle) (hRun : m₀.TimelyRun labels m)
    (hPlain : ∀ l ∈ labels, l.plain) (hCovered : PopsCovered labels) :
    ∀ u, (poppedBy u labels).length + (m.pc u).inPop ≤ acceptedOf u labels := by
  refine Runs.exec_induction (P := fun labels m => (∀ l ∈ labels, l.plain) →
    PopsCovered labels → ∀ u, (poppedBy u labels).length + (m.pc u).inPop ≤
      acceptedOf u labels) ?_ ?_ labels m hRun hPlain hCovered
  · intro _ _ u
    simp [hQuiet, poppedBy, Pc.inPop]
  · intro labels m l n hRun ih hStep hPlain hCovered u
    have hBefore : ∀ l ∈ labels, l.plain := fun l hl => hPlain l (List.mem_append_left _ hl)
    have hOld := ih hBefore (hCovered.of_isPrefix (List.prefix_append _ _))
    have hBalanced := Monitored.TimelyRun.balanced hReach hQuiet hRun hBefore
    obtain ⟨t, op, rfl, hIdle, rfl⟩ |
      ⟨t, spurious, a, q, p, rfl, hTimely, hAccess, rfl⟩ | ⟨t, x, rfl, hDone, rfl⟩ :=
        Monitored.timelyStep_cases hStep
    · have hNew := hOld u
      obtain rfl | hu := eq_or_ne u t
      · rw [hIdle] at hNew
        cases op with
        | pop =>
          have hLess := hCovered u labels (by simp) List.prefix_rfl
          simpa [Label.popped?, Label.accepted, Op.start, Pc.inPop, Nat.succ_le_iff] using hLess
        | _ => simpa [Label.popped?, Label.accepted, Op.start, Pc.inPop] using hNew
      · simpa [Function.update_of_ne hu, Label.popped?, Label.accepted] using hNew
    · obtain ⟨r, hRing, -⟩ := hBalanced.ring
      obtain ⟨r', hNext, hMove⟩ := hRing.access hTimely hAccess
      have hAfter := hNext.forces t
      rw [show (m.access t a q p).pc t = p from Function.update_self ..] at hAfter
      have hInPop := (hMove.balance (hRing.forces t) hAfter).2.2
      obtain ⟨-, hPopped, hAccepted⟩ := step_tally labels t u spurious
      rw [hPopped, hAccepted]
      have hNew := hOld u
      obtain rfl | hu := eq_or_ne u t
      · rw [← hInPop] at hNew
        simpa [Monitored.access] using hNew
      · simpa [Monitored.access, Function.update_of_ne hu] using hNew
    · calc (poppedBy u (labels ++ [.ret t x])).length + (Function.update m.pc t .idle u).inPop
          ≤ (poppedBy u labels).length + (m.pc u).inPop := ret_pops hDone u
        _ ≤ acceptedOf u labels := hOld u
        _ ≤ acceptedOf u (labels ++ [.ret t x]) := by
          rw [acceptedOf_snoc]
          exact Nat.le_add_right _ _

/-- From any reachable state without calls in flight, and without `force_push`: if the
threads push only what they hold, and what is stored and held at the start fits, then no
push returns `Err`; if they pop only what their pushes have covered, then no pop returns
`None`. -/
theorem client_laws {m₀ : Monitored c ι α} (hReach : m₀.Reachable)
    (hQuiet : ∀ t, m₀.pc t = .idle) (hRun : m₀.TimelyRun labels m)
    (hPlain : ∀ l ∈ labels, l.plain) :
    (∀ held : ι → Multiset α, m₀.queue.stored + ∑ t, (held t).card ≤ c.N →
      PushesHeld held labels → ∀ t value, .ret t (.pushErr value) ∉ labels) ∧
    (PopsCovered labels → ∀ t, .ret t (.pop none) ∉ labels) := by
  constructor
  · intro held hRoom hHeld t value hRet
    obtain ⟨before, spurious, m₁, a, q, hIsPrefix, hBefore, hTimely, hAccess⟩ :=
      hRun.step_of_ret hQuiet hRet
    have hInit : before <+: labels := (List.prefix_append _ _).trans hIsPrefix
    have hBalanced := Monitored.TimelyRun.balanced hReach hQuiet hBefore
      fun l hl => hPlain l (hInit.subset hl)
    exact hBalanced.not_full hRoom (fun u => hHeld u before ((List.mem_inits _ _).mpr hInit))
      hTimely hAccess
  · intro hCovered t hRet
    obtain ⟨before, spurious, m₁, a, q, hIsPrefix, hBefore, hTimely, hAccess⟩ :=
      hRun.step_of_ret hQuiet hRet
    have hInit : before <+: labels := (List.prefix_append _ _).trans hIsPrefix
    have hPlain' : ∀ l ∈ before, l.plain := fun l hl => hPlain l (hInit.subset hl)
    have hBalanced := Monitored.TimelyRun.balanced hReach hQuiet hBefore hPlain'
    exact hBalanced.not_empty (Monitored.TimelyRun.pops hReach hQuiet hBefore hPlain'
      (hCovered.of_isPrefix hInit)) hTimely hAccess

/-- Thread 0 pushes the value that it holds while thread 1 looks at the queue, and pops it. -/
def pushThenPop : List (Label (Fin 2) ℕ) :=
  [Label.call 0 (.push 7), Label.step 0 false, Label.step 0 false, Label.step 0 false,
    Label.call 1 .isEmpty, Label.step 1 false, Label.step 0 false, Label.step 1 false,
    Label.step 0 false, Label.ret 0 .pushOk, Label.ret 1 (.isEmpty false), Label.call 0 .pop] ++
  List.replicate 5 (Label.step 0 false) ++ [Label.ret 0 (.pop (some (some 7)))]

theorem client_laws_pushThenPop :
    (∀ t value, .ret t (.pushErr value) ∉ pushThenPop) ∧
    (∀ t, .ret t (.pop none) ∉ pushThenPop) := by
  obtain ⟨hPush, hPop⟩ := client_laws
    (m := (Runs.exec Monitored.timelyStep (.new .one (Fin 2) ℕ) pushThenPop).get (by decide))
    ⟨[], rfl⟩ (fun _ => rfl) (Option.some_get _).symm (by decide)
  constructor
  · apply hPush (fun t => if t = 0 then {7} else 0) (by decide)
    unfold PushesHeld
    decide
  · apply hPop
    unfold PopsCovered
    decide

end Runs

end NureQueue
