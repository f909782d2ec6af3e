import Mathlib.Data.Finset.Card
import NureQueue.Edges
import NureQueue.Races

/-! # Runs that are timely by what their calls overlap with

The timing assumption speaks of the moves of head and tail since a word was loaded. Here
it follows from the calls and returns alone: a run is timely if no call overlaps with too
many pushing calls, and so is every run with fewer than a quarter of 2^w pushing calls.
Pops and observers are not counted, however many there are.
-/

namespace NureQueue

open Linearizability

universe u v

variable {c : Config} {ι : Type v} {α : Type u}

def Op.pushes : Op α → Bool
  | .push _ | .forcePush _ => true
  | .pop | .isEmpty | .isFull | .len => false

def Ret.pushes : Ret α → Bool
  | .pushOk | .pushErr _ | .forcePush _ => true
  | .pop _ | .isEmpty _ | .isFull _ | .len _ => false

namespace Label

def beginsPush : Label ι α → Bool
  | .call _ op => op.pushes
  | .step _ _ | .ret _ _ => false

def endsPush : Label ι α → Bool
  | .ret _ x => x.pushes
  | .call _ _ | .step _ _ => false

end Label

namespace Pc

def pushes : Pc c α → Bool
  | .pushLoad .. | .pushStamp .. | .pushCas .. | .pushWrite .. | .pushPublish ..
  | .fullLoad .. | .forceCas .. | .forceStore .. | .forceReplace .. | .forcePublish .. => true
  | .done x => x.pushes
  | _ => false

def mayMoveTail : Pc c α → Bool
  | .pushLoad .. | .pushStamp .. | .pushCas .. | .fullLoad .. | .forceCas .. | .forceStore .. =>
    true
  | _ => false

/-- The index whose word a call holds in a local, for a later access to use. -/
def holds : Pc c α → Option Word
  | .lenHead _ => some .tail
  | p => p.uses

variable {p p' : Pc c α} {q q' : Queue c α} {spurious : Bool} {a : Access}

theorem pushes_of_mayMoveTail (h : p.mayMoveTail = true) : p.pushes = true := by
  cases p with
  | pushLoad | pushStamp | pushCas | fullLoad | forceCas | forceStore => rfl
  | _ => cases h

theorem pushes_step (hStep : p.step q spurious = some (a, q', p')) : p'.pushes = p.pushes := by
  cases edge hStep <;> rfl

theorem mayMoveTail_step (hStep : p.step q spurious = some (a, q', p')) :
    a.moves .tail + p'.mayMoveTail.toNat ≤ p.mayMoveTail.toNat := by
  cases edge hStep <;> exact Nat.le_of_ble_eq_true rfl

/-- A word that a call holds after a step was loaded by it or held before. -/
theorem holds_step (hStep : p.step q spurious = some (a, q', p')) {x : Word}
    (hHolds : p'.holds = some x) : p'.loaded = some x ∨ p'.loaded = none ∧ p.holds = some x := by
  cases edge hStep with
  | pushLoad | pushLost | popLoad | popLost | emptyHead | fullTail | lenTail =>
    exact .inl hHolds
  | pushFree | pushEnter | forceEnter | popStored | popFree | lenHead => exact .inr ⟨rfl, hHolds⟩
  | _ => cases hHolds

theorem holds_of_uses {x : Word} (h : p.uses = some x) : p.holds = some x := by
  cases p with
  | lenHead => cases h
  | _ => exact h

theorem holds_start (op : Op α) : (op.start : Pc c α).holds = none := by
  cases op <;> rfl

theorem pushes_start (op : Op α) : (op.start : Pc c α).pushes = op.pushes := by
  cases op <;> rfl

theorem mayMoveTail_start (op : Op α) : (op.start : Pc c α).mayMoveTail = op.pushes := by
  cases op <;> rfl

end Pc

def StandAt (P : Pc c α → Bool) (pc : ι → Pc c α) (threads : Finset ι) : Prop :=
  ∀ t, t ∈ threads ↔ P (pc t) = true

theorem StandAt.new {P : Pc c α → Bool} (hIdle : P .idle = false) :
    StandAt P (System.new c ι α).pc ∅ := by
  intro t
  change t ∈ ∅ ↔ P .idle = true
  simp [hIdle]

section Threads

variable [DecidableEq ι] {P : Pc c α → Bool} {pc : ι → Pc c α} {threads : Finset ι}

theorem StandAt.update (h : StandAt P pc threads) (t : ι) (p : Pc c α) :
    ∃ threads', StandAt P (Function.update pc t p) threads' ∧
      threads'.card + (P (pc t)).toNat = threads.card + (P p).toNat := by
  have hOther : ∀ u, u ≠ t → P (Function.update pc t p u) = P (pc u) := by
    intro u hu
    rw [Function.update_of_ne hu]
  cases hp : P p with
  | true =>
    refine ⟨insert t threads, ?_, ?_⟩
    · intro u
      obtain rfl | hu := eq_or_ne u t
      · simp [hp]
      · rw [Finset.mem_insert, hOther u hu, ← h u]
        exact or_iff_right hu
    · cases hBefore : P (pc t) with
      | true => rw [Finset.insert_eq_self.mpr ((h t).mpr hBefore)]
      | false =>
        have hNot : t ∉ threads := by
          rw [h t, hBefore]
          exact Bool.false_ne_true
        rw [Finset.card_insert_of_notMem hNot]
        rfl
  | false =>
    refine ⟨threads.erase t, ?_, ?_⟩
    · intro u
      obtain rfl | hu := eq_or_ne u t
      · simp [hp]
      · rw [Finset.mem_erase, hOther u hu, ← h u]
        exact and_iff_right hu
    · cases hBefore : P (pc t) with
      | true => exact Finset.card_erase_add_one ((h t).mpr hBefore)
      | false =>
        have hNot : t ∉ threads := by
          rw [h t, hBefore]
          exact Bool.false_ne_true
        rw [Finset.erase_eq_of_notMem hNot]

end Threads

theorem countP_snoc (P : Label ι α → Bool) (labels : List (Label ι α)) (l : Label ι α) :
    (labels ++ [l]).countP P = labels.countP P + (P l).toNat := by
  rw [List.countP_append, List.countP_singleton]
  cases P l <;> rfl

/-- At every moment of a call, the pushing calls begun so far that had not returned before
the call began are fewer than K/2 - N. -/
def Brief (c : Config) (labels : List (Label ι α)) : Prop :=
  ∀ before t op during rest, labels = before ++ .call t op :: (during ++ rest) →
    (∀ x, .ret t x ∉ during) →
    (before ++ .call t op :: during).countP Label.beginsPush + c.N <
      before.countP Label.endsPush + c.K / 2

variable {labels : List (Label ι α)}

theorem Brief.prefix {l : Label ι α} (h : Brief c (labels ++ [l])) : Brief c labels := by
  rintro before t op during rest rfl hOpen
  exact h before t op during (rest ++ [l]) (by simp) hOpen

theorem Brief.of_few (h : labels.countP Label.beginsPush + c.N < c.K / 2) : Brief c labels := by
  rintro before t op during rest rfl -
  have hPart : (before ++ .call t op :: during).countP Label.beginsPush ≤
      (before ++ .call t op :: (during ++ rest)).countP Label.beginsPush :=
    List.Sublist.countP_le (by simp)
  omega

section Runs

variable [DecidableEq ι] [DecidableEq α] {m m₀ m' : Monitored c ι α}
variable {before during : List (Label ι α)}

namespace Monitored

/-- The pushing calls begun are those that have returned and those in flight. -/
theorem TimelyRun.inFlight (hRun : m₀.TimelyRun labels m) {threads₀ : Finset ι}
    (hStart : StandAt Pc.pushes m₀.pc threads₀) :
    ∃ threads, StandAt Pc.pushes m.pc threads ∧
      threads.card + labels.countP Label.endsPush =
        labels.countP Label.beginsPush + threads₀.card := by
  refine Runs.exec_induction (P := fun labels m => ∃ threads, StandAt Pc.pushes m.pc threads ∧
    threads.card + labels.countP Label.endsPush =
      labels.countP Label.beginsPush + threads₀.card) ⟨_, hStart, Nat.add_comm _ _⟩ ?_ labels m hRun
  rintro labels m l m' - ⟨threads, hStand, hCount⟩ hStep
  rw [countP_snoc, countP_snoc]
  obtain ⟨t, op, rfl, hIdle, rfl⟩ |
    ⟨t, spurious, a, q, p, rfl, -, hAccess, rfl⟩ | ⟨t, x, rfl, hDone, rfl⟩ := timelyStep_cases hStep
  · obtain ⟨threads', hStand', hCard⟩ := hStand.update t op.start
    refine ⟨threads', hStand', ?_⟩
    rw [hIdle, Pc.pushes_start] at hCard
    simp only [Label.beginsPush, Label.endsPush, Pc.pushes, Bool.toNat_false] at hCard ⊢
    omega
  · obtain ⟨threads', hStand', hCard⟩ := hStand.update t p
    refine ⟨threads', hStand', ?_⟩
    rw [Pc.pushes_step hAccess] at hCard
    simp only [Label.beginsPush, Label.endsPush, Bool.toNat_false]
    omega
  · obtain ⟨threads', hStand', hCard⟩ := hStand.update t .idle
    refine ⟨threads', hStand', ?_⟩
    rw [hDone] at hCard
    simp only [Label.beginsPush, Label.endsPush, Pc.pushes, Bool.toNat_false] at hCard ⊢
    omega

/-- Every move of tail is that of a pushing call, which makes no second one. -/
theorem tail_moves_step {threads : Finset ι} (hStand : StandAt Pc.mayMoveTail m.pc threads)
    {l : Label ι α} (hStep : m.timelyStep l = some m') :
    ∃ threads', StandAt Pc.mayMoveTail m'.pc threads' ∧
      m'.moves .tail + threads'.card ≤ m.moves .tail + threads.card + l.beginsPush.toNat := by
  obtain ⟨t, op, rfl, hIdle, rfl⟩ |
    ⟨t, spurious, a, q, p, rfl, -, hAccess, rfl⟩ | ⟨t, x, rfl, hDone, rfl⟩ := timelyStep_cases hStep
  · obtain ⟨threads', hStand', hCard⟩ := hStand.update t op.start
    refine ⟨threads', hStand', ?_⟩
    rw [hIdle, Pc.mayMoveTail_start] at hCard
    simp only [Label.beginsPush, Pc.mayMoveTail, Bool.toNat_false] at hCard ⊢
    omega
  · obtain ⟨threads', hStand', hCard⟩ := hStand.update t p
    refine ⟨threads', hStand', ?_⟩
    have hMove := Pc.mayMoveTail_step hAccess
    simp only [access]
    omega
  · obtain ⟨threads', hStand', hCard⟩ := hStand.update t .idle
    refine ⟨threads', hStand', ?_⟩
    simp only [Pc.mayMoveTail, Bool.toNat_false] at hCard ⊢
    omega

theorem TimelyRun.tail_moves (hRun : m₀.TimelyRun labels m) {threads₀ : Finset ι}
    (hStart : StandAt Pc.mayMoveTail m₀.pc threads₀) :
    ∃ threads, StandAt Pc.mayMoveTail m.pc threads ∧
      m.moves .tail + threads.card ≤
        labels.countP Label.beginsPush + m₀.moves .tail + threads₀.card := by
  refine Runs.exec_induction (P := fun labels m => ∃ threads,
    StandAt Pc.mayMoveTail m.pc threads ∧ m.moves .tail + threads.card ≤
      labels.countP Label.beginsPush + m₀.moves .tail + threads₀.card)
    ⟨_, hStart, by simp⟩ ?_ labels m hRun
  rintro labels m l m' - ⟨threads, hStand, hCount⟩ hStep
  obtain ⟨threads', hStand', hMoves⟩ := tail_moves_step hStand hStep
  refine ⟨threads', hStand', ?_⟩
  rw [countP_snoc]
  omega

/-- How far tail has moved since a moment of the run: by no more than the pushing calls
that had not returned by then. -/
theorem TimelyRun.tail_le (hBefore : (new c ι α).TimelyRun before m₀)
    (hDuring : m₀.TimelyRun during m) :
    m.moves .tail + before.countP Label.endsPush ≤
      (before ++ during).countP Label.beginsPush + m₀.moves .tail := by
  obtain ⟨flying, hFlying, hReturned⟩ := hBefore.inFlight (StandAt.new rfl)
  have hMay : StandAt Pc.mayMoveTail m₀.pc (flying.filter fun t => (m₀.pc t).mayMoveTail) := by
    intro t
    rw [Finset.mem_filter, hFlying t]
    exact and_iff_right_of_imp Pc.pushes_of_mayMoveTail
  obtain ⟨threads, -, hMoves⟩ := hDuring.tail_moves hMay
  have hCard := Finset.card_filter_le flying fun t => (m₀.pc t).mayMoveTail = true
  rw [List.countP_append]
  rw [Finset.card_empty] at hReturned
  omega

theorem TimelyRun.last_call (hRun : (new c ι α).TimelyRun labels m) {t : ι}
    (hBusy : m.pc t ≠ .idle) :
    ∃ before op during m₀, labels = before ++ .call t op :: during ∧
      (∀ x, .ret t x ∉ during) ∧ (new c ι α).TimelyRun before m₀ ∧ m₀.pc t = .idle ∧
      m₀.TimelyRun (.call t op :: during) m := by
  revert hBusy
  refine Runs.exec_induction (P := fun labels m => m.pc t ≠ .idle →
    ∃ before op during m₀, labels = before ++ .call t op :: during ∧
      (∀ x, .ret t x ∉ during) ∧ (new c ι α).TimelyRun before m₀ ∧ m₀.pc t = .idle ∧
      m₀.TimelyRun (.call t op :: during) m) (fun hBusy => absurd rfl hBusy) ?_ labels m hRun
  rintro labels m l m' hLabels hBefore hStep hBusy
  have hMore : m.pc t ≠ .idle → (∀ x, l ≠ .ret t x) →
      ∃ before op during m₀, labels ++ [l] = before ++ .call t op :: during ∧
        (∀ x, .ret t x ∉ during) ∧ (new c ι α).TimelyRun before m₀ ∧ m₀.pc t = .idle ∧
        m₀.TimelyRun (.call t op :: during) m' := by
    intro hBusy hNotRet
    obtain ⟨before, op, during, m₀, rfl, hOpen, hFirst, hIdle, hDuring⟩ := hBefore hBusy
    refine ⟨before, op, during ++ [l], m₀, by simp, ?_, hFirst, hIdle, ?_⟩
    · intro x hx
      obtain hOld | hNew := List.mem_append.mp hx
      · exact hOpen x hOld
      · exact hNotRet x (List.mem_singleton.mp hNew).symm
    · exact Runs.exec_snoc_eq_some.mpr ⟨m, hDuring, hStep⟩
  obtain ⟨u, op, rfl, hIdle, rfl⟩ |
    ⟨u, spurious, a, q, p, rfl, -, hAccess, rfl⟩ | ⟨u, x, rfl, -, rfl⟩ := timelyStep_cases hStep
  · obtain rfl | hu := eq_or_ne t u
    · exact ⟨labels, op, [], m, rfl, fun _ => List.not_mem_nil, hLabels, hIdle,
        (Runs.exec_singleton ..).trans hStep⟩
    · refine hMore ?_ nofun
      rwa [← Function.update_of_ne hu op.start m.pc]
  · refine hMore ?_ nofun
    obtain rfl | hu := eq_or_ne t u
    · intro hIdle
      rw [hIdle] at hAccess
      cases hAccess
    · rwa [← Function.update_of_ne hu p m.pc]
  · obtain rfl | hu := eq_or_ne t u
    · exact absurd (Function.update_self ..) hBusy
    · refine hMore ?_ fun y hy => hu (by cases hy; rfl)
      rwa [← Function.update_of_ne hu .idle m.pc]

/-- A word that a call holds was loaded since the call began. -/
theorem TimelyRun.loaded_since (hRun : m₀.TimelyRun labels m) {t : ι} (hIdle : m₀.pc t = .idle)
    {x : Word} (hHolds : (m.pc t).holds = some x) : m₀.moves x ≤ m.seen t := by
  have hAll : ∀ x, m₀.moves x ≤ m.moves x ∧ ((m.pc t).holds = some x → m₀.moves x ≤ m.seen t) := by
    refine Runs.exec_invariant (P := fun m : Monitored c ι α => ∀ x, m₀.moves x ≤ m.moves x ∧
      ((m.pc t).holds = some x → m₀.moves x ≤ m.seen t)) ?_ hRun ?_
    · rintro m l m' h hStep x
      refine ⟨(h x).1.trans (timelyStep_moves hStep x).1, ?_⟩
      obtain ⟨u, op, rfl, -, rfl⟩ |
        ⟨u, spurious, a, q, p, rfl, -, hAccess, rfl⟩ | ⟨u, y, rfl, -, rfl⟩ :=
          timelyStep_cases hStep
      · obtain rfl | hu := eq_or_ne t u
        · simp only [Function.update_self, Pc.holds_start]
          intro hHolds
          cases hHolds
        · simp only [Function.update_of_ne hu]
          exact (h x).2
      · obtain rfl | hu := eq_or_ne t u
        · simp only [access, Function.update_self, note]
          intro hHolds
          obtain hLoaded | ⟨hNone, hOld⟩ := Pc.holds_step hAccess hHolds
          · rw [hLoaded]
            exact (h x).1
          · rw [hNone]
            exact (h x).2 hOld
        · simp only [access, Function.update_of_ne hu]
          exact (h x).2
      · obtain rfl | hu := eq_or_ne t u
        · simp only [Function.update_self]
          intro hHolds
          cases hHolds
        · simp only [Function.update_of_ne hu]
          exact (h x).2
    · intro x
      rw [hIdle]
      refine ⟨Nat.le_refl _, ?_⟩
      intro hHolds
      cases hHolds
  exact (hAll x).2 hHolds

theorem exists_step {l : Label ι α} {s : System c ι α} (hStep : m.toSystem.step l = some s) :
    ∃ m', m.step l = some m' ∧ m'.toSystem = s := by
  cases l with
  | call t op | ret t x => exact ⟨_, by simp only [step, hStep]; rfl, rfl⟩
  | step t spurious =>
    obtain ⟨⟨a, q, p⟩, hAccess, rfl⟩ := Option.map_eq_some_iff.mp hStep
    exact ⟨m.access t a q p, by simp only [step, hAccess]; rfl, rfl⟩

/-- A run of the system is timely if each of its states would be. -/
theorem exec_timely {Q : List (Label ι α) → Prop}
    (hPrefix : ∀ labels l, Q (labels ++ [l]) → Q labels)
    (hTimely : ∀ labels m, (new c ι α).TimelyRun labels m → Q labels → ∀ t, m.Timely t)
    {s : System c ι α} (hRun : Runs.exec System.step (System.new c ι α) labels = some s)
    (hQ : Q labels) : ∃ m, (new c ι α).TimelyRun labels m ∧ m.toSystem = s := by
  revert hQ
  refine Runs.exec_induction (P := fun labels s => Q labels →
    ∃ m, (new c ι α).TimelyRun labels m ∧ m.toSystem = s) (fun _ => ⟨_, rfl, rfl⟩) ?_ labels s hRun
  rintro labels s l s' - ih hStep hQ
  obtain ⟨m, hLabels, rfl⟩ := ih (hPrefix labels l hQ)
  have hNow := hTimely labels m hLabels (hPrefix labels l hQ)
  obtain ⟨m', hNext, hSystem⟩ := exists_step hStep
  have hLast : m.timelyStep l = some m' := by
    cases l with
    | step t spurious => exact (if_pos (hNow t)).trans hNext
    | call t op | ret t x => exact hNext
  exact ⟨m', Runs.exec_snoc_eq_some.mpr ⟨m, hLabels, hLast⟩, hSystem⟩

end Monitored

omit [DecidableEq ι] [DecidableEq α] in
theorem Represents.moves_le_tail {r : Ring ι α} (h : Represents m r) (x : Word) :
    m.moves x ≤ m.moves .tail := by
  have hHead := h.ok.head_le
  rw [← h.head, ← h.tail] at hHead
  cases x with
  | head => exact hHead
  | tail => exact Nat.le_refl _

theorem Brief.timely (h : Brief c labels) (hRun : (Monitored.new c ι α).TimelyRun labels m)
    (t : ι) : m.Timely t := by
  intro x hUses
  have hBusy : m.pc t ≠ .idle := by
    intro hIdle
    rw [hIdle] at hUses
    cases hUses
  obtain ⟨before, op, during, m₀, rfl, hOpen, hBefore, hIdle, hDuring⟩ := hRun.last_call hBusy
  obtain ⟨r, hRing⟩ := hRun.represents ⟨_, Represents.new c ι α⟩
  obtain ⟨r₀, hRing₀⟩ := hBefore.represents ⟨_, Represents.new c ι α⟩
  have hTail := Monitored.TimelyRun.tail_le hBefore hDuring
  have hCount := h before t op during [] (by simp) hOpen
  have hSeen := hDuring.loaded_since hIdle (Pc.holds_of_uses hUses)
  cases x with
  | tail => omega
  | head =>
    -- Head does not pass tail, and was at most N behind it when the call began.
    have hNow := hRing.ok.head_le
    have hThen := hRing₀.ok.tail_le
    rw [← hRing.head, ← hRing.tail] at hNow
    rw [← hRing₀.head, ← hRing₀.tail] at hThen
    omega

theorem Config.two_pow_le_K (c : Config) : 2 ^ (c.w - 1) ≤ c.K := by
  obtain ⟨b, -, hL, -, hLow, -⟩ := c.oneLapFor_eq
  have hTwice : c.L ≤ 2 * c.N := by
    rw [L, hL]
    cases b with
    | zero =>
      have hN := c.pos
      omega
    | succ b =>
      rw [Nat.pow_succ']
      exact Nat.mul_le_mul_left 2 hLow
  have hWord : 2 * 2 ^ (c.w - 1) = 2 ^ c.w := by
    rw [← Nat.pow_succ']
    congr 1
    have hw := c.w_pos
    omega
  have hLaps := Nat.mul_le_mul_right c.laps hTwice
  rw [c.L_mul_laps, Nat.mul_assoc] at hLaps
  change 2 ^ c.w ≤ 2 * c.K at hLaps
  omega

theorem Config.two_pow_le_half_K (c : Config) : 2 ^ (c.w - 2) ≤ c.K / 2 := by
  have hK := c.two_pow_le_K
  have hPow : 2 * 2 ^ (c.w - 2) = 2 ^ (c.w - 1) := by
    rw [← Nat.pow_succ']
    congr 1
    have hu := c.need_le
    have hw := c.width
    omega
  omega

theorem timely_of_few (hFew : labels.countP Label.beginsPush < 2 ^ (c.w - 2))
    (hRun : (Monitored.new c ι α).TimelyRun labels m) (t : ι) : m.Timely t := by
  intro x _
  obtain ⟨r, hRing⟩ := hRun.represents ⟨_, Represents.new c ι α⟩
  have hStart : (Monitored.new c ι α).TimelyRun [] (Monitored.new c ι α) := rfl
  have hTail := hStart.tail_le hRun
  have hK := c.two_pow_le_half_K
  have hMoves := hRing.moves_le_tail x
  change m.moves .tail + 0 ≤ labels.countP Label.beginsPush + 0 at hTail
  omega

/-- What a run of the system, with the state at its end, promises to its callers. -/
structure Sound (labels : List (Label ι α)) (s : System c ι α) : Prop where
  linearizable : Linearizable (fifo c.N) (history labels)
  owner : ∀ t u i, (s.pc t).owns = some i → (s.pc u).owns = some i → t = u
  safe : ∀ t spurious a q p, (s.pc t).step s.queue spurious = some (a, q, p) → a.Safe s.queue
  raceFree : HappensBefore.RaceFree ((System.new c ι α).trace labels)

theorem Monitored.TimelyRun.sound (hRun : (new c ι α).TimelyRun labels m) :
    Sound labels m.toSystem := by
  obtain ⟨r, order, h, hExplains⟩ := hRun.explained
  obtain ⟨_, -, hOrder⟩ := hRun.ordered
  constructor
  · exact ⟨order, hExplains.linearizes⟩
  · intro t u i ht hu
    exact h.owner_unique ht hu
  · intro t spurious a q p hStep
    exact h.access_safe hStep
  · exact hOrder.raceFree

/-- With no assumption on timing: every run in which no call overlaps with too many pushing
calls is sound. -/
theorem brief_runs_sound {s : System c ι α}
    (hRun : Runs.exec System.step (System.new c ι α) labels = some s) (hBrief : Brief c labels) :
    Sound labels s := by
  obtain ⟨m, hTimely, rfl⟩ := Monitored.exec_timely (fun _ _ => Brief.prefix)
    (fun _ _ hRun hBrief => hBrief.timely hRun) hRun hBrief
  exact hTimely.sound

theorem brief_runs_sound_forceThenPop :
    Sound forceThenPop ((Runs.exec System.step (.new .one (Fin 2) ℕ) forceThenPop).get
      (by decide)) :=
  brief_runs_sound (Option.some_get _).symm (Brief.of_few (by decide))

/-- With no assumption on timing: every run with fewer than 2^(w-2) calls of push and
force_push is sound, whatever its other calls. -/
theorem early_runs_sound {s : System c ι α}
    (hRun : Runs.exec System.step (System.new c ι α) labels = some s)
    (hFew : labels.countP Label.beginsPush < 2 ^ (c.w - 2)) : Sound labels s := by
  obtain ⟨m, hTimely, rfl⟩ := Monitored.exec_timely
    (Q := fun labels => labels.countP Label.beginsPush < 2 ^ (c.w - 2)) (fun labels l hFew => by
      rw [countP_snoc] at hFew
      omega) (fun _ _ hRun hFew => timely_of_few hFew hRun) hRun hFew
  exact hTimely.sound

theorem early_runs_sound_forceThenPop :
    Sound forceThenPop ((Runs.exec System.step (.new .one (Fin 2) ℕ) forceThenPop).get
      (by decide)) :=
  early_runs_sound (Option.some_get _).symm (by decide)

end Runs

end NureQueue
