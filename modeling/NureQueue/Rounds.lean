import NureQueue.Backoff
import NureQueue.Edges
import NureQueue.Progress
import NureQueue.Races

/-! # Why a call goes round its loop again

Each further round of a loop has one of three causes: a `compare_exchange_weak` that failed
spuriously, a slot that another call owns at that moment, or a step forward of another call
since the round began.
-/

namespace NureQueue

universe u v

variable {c : Config} {ι : Type v} {α : Type u}

/-- The accesses that move head, tail or a stamp forward. -/
def Access.progresses : Access → Bool
  | .casHead won | .casTail won => won
  | .storeTail | .storeStamp _ => true
  | _ => false

namespace Pc

/-- Whether a step leads into a new round of the loop. -/
def again : Pc c α → Pc c α → Bool
  | .lenCheck .., .lenTail => true
  | p, p' => (p.pause p').isSome

/-- The slot of the index word that a call has in its present round. -/
def slot : Pc c α → Option ℕ
  | .pushStamp _ _ tail | .pushCas _ _ tail | .fullLoad _ tail | .forceCas _ tail =>
    some (c.index tail)
  | .popStamp head | .popCas head | .popTail head => some (c.index head)
  | _ => none

/-- A `compare_exchange_weak` that would succeed if it did not fail spuriously. -/
def failsSpuriously (q : Queue c α) (spurious : Bool) (p : Pc c α) : Bool :=
  spurious && (p.step q false).any fun x => x.1 = .casHead true || x.1 = .casTail true

end Pc

namespace System

def accesses (who : ι → Bool) : System c ι α → Label ι α → ℕ :=
  steps who fun _ _ _ _ _ => true

def rounds (who : ι → Bool) : System c ι α → Label ι α → ℕ :=
  steps who fun _ _ p _ p' => p.again p'

def spuriousFailures (who : ι → Bool) : System c ι α → Label ι α → ℕ :=
  steps who fun q spurious p _ _ => p.failsSpuriously q spurious

def progress (who : ι → Bool) : System c ι α → Label ι α → ℕ :=
  steps who fun _ _ _ a _ => a.progresses

/-- Thread t needs a slot that another call owns. -/
def Waits (s : System c ι α) (t : ι) : Prop :=
  ∃ i u, u ≠ t ∧ (s.pc t).slot = some i ∧ (s.pc u).owns = some i

/-- One for a label that begins a round of a loop of thread t, the first of a call or a
further one. -/
def begins [DecidableEq ι] (t : ι) (s : System c ι α) (l : Label ι α) : ℕ :=
  l.calls (fun u => u = t) + rounds (fun u => u = t) s l

open Classical in
/-- One for a step of thread t into a new round if the thread needs a slot that another
call owns. -/
noncomputable def waits [DecidableEq ι] (t : ι) (s : System c ι α) (l : Label ι α) : ℕ :=
  if s.Waits t then rounds (fun u => u = t) s l else 0

end System

/-- Since its round began, another call has moved the index that the call has loaded, or
stored the stamp that it has loaded. Here k is the noted position. -/
def Pc.Outdated (r : Ring ι α) (k : ℕ) : Pc c α → Prop
  | .pushStamp .. | .pushCas .. | .lenHead _ | .lenCheck .. => r.tail ≠ k
  | .fullLoad .. | .forceCas .. => (r.cell (k % c.N)).version + 2 * c.N ≠ 2 * k + 1
  | .popStamp _ | .popCas _ => r.head ≠ k
  | .popTail _ => (r.cell (k % c.N)).version ≠ 2 * k
  | _ => False

section Own

variable {m : Monitored c ι α} {r r' : Ring ι α} {t : ι} {k : ℕ}
variable {a : Access} {q : Queue c α} {p : Pc c α} {spurious : Bool}

theorem Pc.outdated_congr (p : Pc c α) (hHead : r'.head = r.head) (hTail : r'.tail = r.tail)
    (hCell : r'.cell (k % c.N) = r.cell (k % c.N)) : p.Outdated r' k ↔ p.Outdated r k := by
  cases p <;> simp only [Outdated, hHead, hTail, hCell]

/-- A step that moves nothing forward leaves head, tail and the slots of the ring. -/
theorem Represents.still [DecidableEq ι] (h : Represents m r)
    (hStep : (m.pc t).step m.queue spurious = some (a, q, p))
    (h' : Represents (m.access t a q p) r') (hMove : Move c t r (m.pc t) r' p)
    (hStill : a.progresses = false) :
    r'.head = r.head ∧ r'.tail = r.tail ∧ ∀ i < c.N, r'.cell i = r.cell i := by
  have hMoves : ∀ x, a.moves x = 0 := by
    intro x
    cases a with
    | casHead won | casTail won =>
      cases hStill
      cases x <;> rfl
    | storeTail | storeStamp => cases hStill
    | _ => cases x <;> rfl
  have hOwns : p.owns = (m.pc t).owns := by
    obtain hSame | ⟨-, rfl | rfl⟩ | ⟨i, -, rfl, -⟩ := Pc.owns_step hStep
    · exact hSame
    all_goals cases hStill
  have hPc' : (m.access t a q p).pc t = p := Function.update_self ..
  refine ⟨?_, ?_, ?_⟩
  · rw [← h'.head, ← h.head]
    exact congrArg (m.moves .head + ·) (hMoves .head)
  · rw [← h'.tail, ← h.tail]
    exact congrArg (m.moves .tail + ·) (hMoves .tail)
  · intro i hi
    obtain hSame | ⟨hRest, hHeld'⟩ | ⟨hHeld, hRest', -⟩ := hMove.cell_cases i
    · exact hSame
    · have hOwn := h'.holder i hi t hHeld'
      rw [hPc', hOwns] at hOwn
      cases hRest.symm.trans (h.owner hOwn).2
    · have hOwn := h.holder i hi t hHeld
      rw [← hOwns, ← hPc'] at hOwn
      cases hRest'.symm.trans (h'.owner hOwn).2

theorem Represents.waits (h : Represents m r) (hOwns : (m.pc t).owns = none) {i : ℕ}
    (hSlot : (m.pc t).slot = some i) (hi : i < c.N) (hHeld : (r.cell i).hold.holder ≠ none) :
    m.Waits t := by
  obtain ⟨u, hu⟩ := (h.held_iff hi).mp hHeld
  refine ⟨i, u, ?_, hSlot, hu⟩
  rintro rfl
  cases hOwns.symm.trans hu

/-- Why a step of thread t leads into a new round. -/
def Justified (m : Monitored c ι α) (r : Ring ι α) (t : ι) (spurious : Bool) : Prop :=
  (m.pc t).Outdated r (m.seen t) ∨ (m.pc t).failsSpuriously m.queue spurious = true ∨ m.Waits t

theorem Ring.Ok.head_of_lap {N : ℕ} (h : r.Ok N) (hN : 0 < N) (hk : k ≤ r.tail)
    (hVersion : (r.cell (k % N)).version + 2 * N = 2 * k + 1)
    (hRest : (r.cell (k % N)).hold.holder = none) : r.head + N = k := by
  have hFits := h.fits _ (Nat.mod_lt k hN)
  have hTail := h.tail_le
  rw [Cell.version] at hVersion
  generalize r.cell (k % N) = x at *
  obtain ⟨pos, hold⟩ := x
  cases hold with
  | free | stored =>
    simp only [Fits, Hold.bit] at hFits hVersion
    omega
  | pushing | popping | forcing => cases hRest

theorem Ring.Ok.tail_of_free {N : ℕ} (h : r.Ok N) (hN : 0 < N) (hk : k ≤ r.head)
    (hVersion : (r.cell (k % N)).version = 2 * k)
    (hRest : (r.cell (k % N)).hold.holder = none) : r.tail = k := by
  have hFits := h.fits _ (Nat.mod_lt k hN)
  have hHead := h.head_le
  rw [Cell.version] at hVersion
  generalize r.cell (k % N) = x at *
  obtain ⟨pos, hold⟩ := x
  cases hold with
  | free | stored =>
    simp only [Fits, Hold.bit] at hFits hVersion
    omega
  | pushing | popping | forcing => cases hRest

theorem Represents.justified_of_slot (h : Represents m r) (hOwns : (m.pc t).owns = none)
    {word : c.Index} (hSlot : (m.pc t).slot = some (c.index word)) (hWord : word = c.enc k)
    (hRest : (r.cell (k % c.N)).hold.holder = none → (m.pc t).Outdated r (m.seen t) ∨
      (m.pc t).failsSpuriously m.queue spurious = true) : Justified m r t spurious := by
  by_cases hHeld : (r.cell (k % c.N)).hold.holder = none
  · rw [Justified, ← or_assoc]
    exact .inl (hRest hHeld)
  · rw [hWord, c.index_enc] at hSlot
    exact .inr (.inr (h.waits hOwns hSlot (mod_lt c k) hHeld))

theorem Represents.justified_pushStamp (h : Represents m r) {f : Closure} {value : α}
    {tail : c.Index} (hPc : m.pc t = .pushStamp f value tail)
    (hFree : tail ≠ (m.queue.buffer (c.index tail)).stamp)
    (hLap : (m.queue.buffer (c.index tail)).stamp + c.oneLap ≠ tail + 1) :
    Justified m r t spurious := by
  have hLocal := h.locals t
  rw [hPc] at hLocal
  obtain ⟨rfl, -⟩ := hLocal
  refine h.justified_of_slot (by rw [hPc]; rfl) (by rw [hPc]; rfl) rfl ?_
  intro hRest
  rw [hPc]
  refine .inl ?_
  intro hTail
  rw [h.mem.stamp_enc] at hFree hLap
  rw [← hTail] at hFree hLap hRest
  obtain hCell | ⟨hFull, hCell⟩ := h.ok.at_tail c.pos hRest
  · exact hFree (by rw [hCell]; rfl)
  · refine hLap ?_
    rw [hFull, Nat.add_mod_right, hCell, c.enc_add_N]
    change c.enc r.head + 1 + c.oneLap = _
    rw [BitVec.add_assoc, BitVec.add_comm 1, ← BitVec.add_assoc]

theorem Represents.justified_popStamp (h : Represents m r) {head : c.Index}
    (hPc : m.pc t = .popStamp head)
    (hStored : head + 1 ≠ (m.queue.buffer (c.index head)).stamp)
    (hFree : (m.queue.buffer (c.index head)).stamp ≠ head) : Justified m r t spurious := by
  have hLocal := h.locals t
  rw [hPc] at hLocal
  obtain ⟨rfl, -⟩ := hLocal
  refine h.justified_of_slot (by rw [hPc]; rfl) (by rw [hPc]; rfl) rfl ?_
  intro hRest
  rw [hPc]
  refine .inl ?_
  intro hHead
  rw [h.mem.stamp_enc] at hStored hFree
  rw [← hHead] at hStored hFree hRest
  obtain hCell | ⟨-, hCell⟩ := h.ok.at_head c.pos hRest
  · exact hStored (by rw [hCell]; rfl)
  · exact hFree (by rw [hCell]; rfl)

theorem Represents.justified_fullLoad (h : Represents m r) (hTimely : m.Timely t) {value : α}
    {tail : c.Index} (hPc : m.pc t = .fullLoad value tail)
    (hRoom : m.queue.head + c.oneLap ≠ tail) : Justified m r t spurious := by
  have hLocal := h.locals t
  have hRecent := h.timely_tail hTimely (by rw [hPc]; rfl)
  rw [hPc] at hLocal
  obtain ⟨rfl, hk, -⟩ := hLocal
  refine h.justified_of_slot (by rw [hPc]; rfl) (by rw [hPc]; rfl) rfl ?_
  intro hRest
  rw [hPc]
  refine .inl ?_
  intro hVersion
  exact hRoom ((h.tail_word hk hRecent).2.mpr (h.ok.head_of_lap c.pos hk hVersion hRest))

theorem Represents.justified_forceCas (h : Represents m r) (hTimely : m.Timely t) {value : α}
    {tail : c.Index} (hPc : m.pc t = .forceCas value tail)
    (hLost : ¬ (m.queue.head = tail - c.oneLap ∧ spurious = false)) :
    Justified m r t spurious := by
  have hLocal := h.locals t
  have hRecent := h.timely_tail hTimely (by rw [hPc]; rfl)
  rw [hPc] at hLocal
  obtain ⟨hWord, hk, -⟩ := hLocal
  refine h.justified_of_slot (by rw [hPc]; rfl) (by rw [hPc]; rfl) hWord ?_
  intro hRest
  rw [hPc]
  by_cases hVersion : (r.cell (m.seen t % c.N)).version + 2 * c.N = 2 * m.seen t + 1
  · have hFull := (h.tail_word hk hRecent).2.mpr (h.ok.head_of_lap c.pos hk hVersion hRest)
    have hHead : m.queue.head = tail - c.oneLap := by
      rw [hWord, ← hFull, BitVec.add_sub_cancel]
    rw [not_and, Bool.not_eq_false] at hLost
    refine .inr ?_
    simp [Pc.failsSpuriously, Pc.step, hHead, hLost hHead]
  · exact .inl hVersion

theorem Represents.justified_popTail (h : Represents m r) (hTimely : m.Timely t)
    {head : c.Index} (hPc : m.pc t = .popTail head) (hSome : m.queue.tail ≠ head) :
    Justified m r t spurious := by
  have hLocal := h.locals t
  have hRecent := h.timely_head hTimely (by rw [hPc]; rfl)
  rw [hPc] at hLocal
  obtain ⟨rfl, hk, -⟩ := hLocal
  refine h.justified_of_slot (by rw [hPc]; rfl) (by rw [hPc]; rfl) rfl ?_
  intro hRest
  rw [hPc]
  refine .inl ?_
  intro hVersion
  exact hSome ((h.head_word hk hRecent).2.mpr (h.ok.tail_of_free c.pos hk hVersion hRest))

theorem Represents.justified_pushCas (h : Represents m r) (hTimely : m.Timely t) {f : Closure}
    {value : α} {tail : c.Index} (hPc : m.pc t = .pushCas f value tail)
    (hLost : ¬ (m.queue.tail = tail ∧ spurious = false)) : Justified m r t spurious := by
  have hLocal := h.locals t
  have hRecent := h.timely_tail hTimely (by rw [hPc]; rfl)
  rw [hPc] at hLocal
  obtain ⟨hWord, hk, -⟩ := hLocal
  rw [Justified, hPc]
  by_cases hTail : r.tail = m.seen t
  · have hSame : m.queue.tail = tail := ((h.tail_word hk hRecent).1.mpr hTail).trans hWord.symm
    rw [not_and, Bool.not_eq_false] at hLost
    refine .inr (.inl ?_)
    simp [Pc.failsSpuriously, Pc.step, hSame, hLost hSame]
  · exact .inl hTail

theorem Represents.justified_popCas (h : Represents m r) (hTimely : m.Timely t)
    {head : c.Index} (hPc : m.pc t = .popCas head)
    (hLost : ¬ (m.queue.head = head ∧ spurious = false)) : Justified m r t spurious := by
  have hLocal := h.locals t
  have hRecent := h.timely_head hTimely (by rw [hPc]; rfl)
  rw [hPc] at hLocal
  obtain ⟨hWord, hk, -⟩ := hLocal
  rw [Justified, hPc]
  by_cases hHead : r.head = m.seen t
  · have hSame : m.queue.head = head := ((h.head_word hk hRecent).1.mpr hHead).trans hWord.symm
    rw [not_and, Bool.not_eq_false] at hLost
    refine .inr (.inl ?_)
    simp [Pc.failsSpuriously, Pc.step, hSame, hLost hSame]
  · exact .inl hHead

theorem Represents.justified_lenCheck (h : Represents m r) (hTimely : m.Timely t)
    {tail head : c.Index} (hPc : m.pc t = .lenCheck tail head) (hMoved : m.queue.tail ≠ tail) :
    Justified m r t spurious := by
  have hLocal := h.locals t
  have hRecent := h.timely_tail hTimely (by rw [hPc]; rfl)
  rw [hPc] at hLocal
  obtain ⟨hWord, hk⟩ := hLocal
  rw [Justified, hPc]
  refine .inl ?_
  intro hTail
  exact hMoved (((h.tail_word hk hRecent).1.mpr hTail).trans hWord.symm)

theorem Represents.justified (h : Represents m r) (hTimely : m.Timely t)
    (hStep : (m.pc t).step m.queue spurious = some (a, q, p))
    (hAgain : (m.pc t).again p = true) : Justified m r t spurious := by
  cases hPc : m.pc t with
  | idle | done => rw [hPc] at hStep; cases hStep
  | pushStamp f value tail =>
    rw [hPc, Pc.step] at hStep
    rw [hPc] at hAgain
    split_ifs at hStep with hFree hLap
    · cases hStep
      cases hAgain
    · cases f <;> cases hStep <;> cases hAgain
    · exact h.justified_pushStamp hPc hFree hLap
  | pushCas f value tail =>
    rw [hPc, Pc.step] at hStep
    rw [hPc] at hAgain
    split_ifs at hStep with hWon
    · cases hStep
      cases hAgain
    · exact h.justified_pushCas hTimely hPc hWon
  | fullLoad value tail =>
    rw [hPc, Pc.step] at hStep
    rw [hPc] at hAgain
    split_ifs at hStep with hFull
    · cases hStep
      cases hAgain
    · exact h.justified_fullLoad hTimely hPc hFull
  | forceCas value tail =>
    rw [hPc, Pc.step] at hStep
    rw [hPc] at hAgain
    split_ifs at hStep with hWon
    · cases hStep
      cases hAgain
    · exact h.justified_forceCas hTimely hPc hWon
  | popStamp head =>
    rw [hPc, Pc.step] at hStep
    rw [hPc] at hAgain
    split_ifs at hStep with hStored hFree
    · cases hStep
      cases hAgain
    · cases hStep
      cases hAgain
    · exact h.justified_popStamp hPc hStored hFree
  | popCas head =>
    rw [hPc, Pc.step] at hStep
    rw [hPc] at hAgain
    split_ifs at hStep with hWon
    · cases hStep
      cases hAgain
    · exact h.justified_popCas hTimely hPc hWon
  | popTail head =>
    rw [hPc, Pc.step] at hStep
    rw [hPc] at hAgain
    split_ifs at hStep with hEmpty
    · cases hStep
      cases hAgain
    · exact h.justified_popTail hTimely hPc hEmpty
  | lenCheck tail head =>
    rw [hPc, Pc.step] at hStep
    rw [hPc] at hAgain
    split_ifs at hStep with hSame
    · cases hStep
      cases hAgain
    · exact h.justified_lenCheck hTimely hPc hSame
  | _ =>
    rw [hPc] at hStep hAgain
    cases hStep
    cases hAgain

theorem Represents.outdated_step (h : Represents m r) (hTimely : m.Timely t)
    (hStep : (m.pc t).step m.queue spurious = some (a, q, p))
    (hOutdated : p.Outdated r (m.note t p)) :
    (m.pc t).again p = false ∧ (m.pc t).Outdated r (m.seen t) := by
  have hLocal := h.locals t
  cases hPc : m.pc t with
  | idle | done => rw [hPc] at hStep; cases hStep
  | pushLoad | lenTail =>
    rw [hPc] at hStep
    cases hStep
    exact absurd h.tail.symm hOutdated
  | popLoad =>
    rw [hPc] at hStep
    cases hStep
    exact absurd h.head.symm hOutdated
  | lenHead =>
    rw [hPc] at hStep
    cases hStep
    exact ⟨rfl, hOutdated⟩
  | pushStamp f value tail =>
    have hTail := h.timely_tail hTimely (by rw [hPc]; rfl)
    rw [hPc] at hLocal
    rw [hPc, Pc.step] at hStep
    obtain ⟨rfl, hk⟩ := hLocal
    split_ifs at hStep with hFree hLap
    · cases hStep
      exact ⟨rfl, hOutdated⟩
    · rw [h.mem.stamp_enc] at hLap
      have hVersion := (Recent.of_tail h.ok hk hTail).version_of_stamp_lap h.ok hLap
      cases f <;> cases hStep <;> exact absurd hVersion hOutdated
    · cases hStep
      cases hOutdated
  | popStamp head =>
    have hHead := h.timely_head hTimely (by rw [hPc]; rfl)
    rw [hPc] at hLocal
    rw [hPc, Pc.step] at hStep
    obtain ⟨rfl, hk⟩ := hLocal
    split_ifs at hStep with hStored hFree
    · cases hStep
      exact ⟨rfl, hOutdated⟩
    · rw [h.mem.stamp_enc] at hFree
      have hVersion := (Recent.of_head hk hHead).version_of_stamp h.ok hFree
      cases hStep
      exact absurd hVersion hOutdated
    · cases hStep
      cases hOutdated
  | pushCas =>
    rw [hPc, Pc.step] at hStep
    split_ifs at hStep <;> cases hStep
    · cases hOutdated
    · exact absurd h.tail.symm hOutdated
  | popCas =>
    rw [hPc, Pc.step] at hStep
    split_ifs at hStep <;> cases hStep
    · cases hOutdated
    · exact absurd h.head.symm hOutdated
  | fullLoad | forceCas | popTail | lenCheck =>
    rw [hPc, Pc.step] at hStep
    split_ifs at hStep <;> cases hStep <;> cases hOutdated
  | _ =>
    rw [hPc] at hStep
    cases hStep
    cases hOutdated

theorem Pc.again_of_progresses {q₀ : Queue c α} {p₀ : Pc c α}
    (hStep : p₀.step q₀ spurious = some (a, q, p)) (hProgress : a.progresses = true) :
    p₀.again p = false ∧ ∀ r : Ring ι α, ¬ p.Outdated r k := by
  cases edge hStep with
  | pushWon | forceWon | popWon | forceStore | pushOk | forceOk | forcePublish | popPublish =>
    exact ⟨rfl, fun _ => id⟩
  | _ => cases hProgress

end Own

section Costs

variable {m m' : Monitored c ι α} {r r' : Ring ι α} {t u : ι}

theorem System.steps_eq {s : System c ι α} {spurious : Bool} {a : Access}
    {q : Queue c α} {p : Pc c α} (hStep : (s.pc u).step s.queue spurious = some (a, q, p))
    (who : ι → Bool) (kind : Queue c α → Bool → Pc c α → Access → Pc c α → Bool) :
    s.steps who kind (.step u spurious) =
      if who u && kind s.queue spurious (s.pc u) a p then 1 else 0 := by
  simp only [steps, hStep]

open Classical in
/-- One if the round of thread t is outdated. -/
noncomputable def outdated (t : ι) (m : Monitored c ι α) (r : Ring ι α) : ℕ :=
  if (m.pc t).Outdated r (m.seen t) then 1 else 0

theorem outdated_le_one (t : ι) (m : Monitored c ι α) (r : Ring ι α) : outdated t m r ≤ 1 := by
  rw [outdated]
  split_ifs <;> decide

theorem outdated_mono (h : (m'.pc t).Outdated r' (m'.seen t) → (m.pc t).Outdated r (m.seen t)) :
    outdated t m' r' ≤ outdated t m r := by
  rw [outdated, outdated]
  split_ifs with hAfter hBefore
  · exact le_rfl
  · exact absurd (h hAfter) hBefore
  · exact Nat.zero_le _
  · exact le_rfl

variable [DecidableEq ι]

noncomputable def System.causes (t : ι) (s : System c ι α) (l : Label ι α) : ℕ :=
  s.spuriousFailures (fun u => u = t) l + s.waits t l + s.progress (fun u => u ≠ t) l

theorem outdated_call (op : Op α) :
    outdated t { m with pc := Function.update m.pc t op.start } r = 0 := by
  refine if_neg ?_
  simp only [Function.update_self]
  cases op <;> exact id

/-- A further round is up to date when it begins. -/
theorem Represents.outdated_of_again (h : Represents m r) (hTimely : m.Timely t) {spurious : Bool}
    {a : Access} {q : Queue c α} {p : Pc c α}
    (hStep : (m.pc t).step m.queue spurious = some (a, q, p))
    (h' : Represents (m.access t a q p) r') (hMove : Move c t r (m.pc t) r' p)
    (hAgain : (m.pc t).again p = true) : outdated t (m.access t a q p) r' = 0 := by
  have hPoint : (m.access t a q p).pc t = p := Function.update_self ..
  have hSeen : (m.access t a q p).seen t = m.note t p := Function.update_self ..
  have hStill : a.progresses = false := by
    by_contra hMoves
    rw [Bool.not_eq_false] at hMoves
    have hLast := (Pc.again_of_progresses (ι := ι) (k := 0) hStep hMoves).1
    cases hAgain.symm.trans hLast
  obtain ⟨hHead, hTail, hCell⟩ := h.still hStep h' hMove hStill
  rw [outdated, hPoint, hSeen, if_neg]
  intro hOutdated
  have hBefore := (p.outdated_congr hHead hTail (hCell _ (mod_lt c (m.note t p)))).mp hOutdated
  cases hAgain.symm.trans (h.outdated_step hTimely hStep hBefore).1

theorem Represents.round_pays_own (h : Represents m r) (hTimely : m.Timely t) {spurious : Bool}
    {a : Access} {q : Queue c α} {p : Pc c α}
    (hStep : (m.pc t).step m.queue spurious = some (a, q, p))
    (h' : Represents (m.access t a q p) r') (hMove : Move c t r (m.pc t) r' p) :
    m.rounds (fun u => u = t) (.step t spurious) + outdated t (m.access t a q p) r' ≤
      System.causes t m.toSystem (.step t spurious) + outdated t m r := by
  have hAfter : (m.access t a q p).pc t = p ∧ (m.access t a q p).seen t = m.note t p :=
    ⟨Function.update_self .., Function.update_self ..⟩
  have hRounds : m.rounds (fun u => u = t) (.step t spurious) =
      if (m.pc t).again p then 1 else 0 := by
    simp [System.rounds, System.steps_eq hStep]
  cases hProgress : a.progresses with
  | true =>
    obtain ⟨hAgain, hCurrent⟩ := Pc.again_of_progresses (k := m.note t p) hStep hProgress
    have hZero : outdated t (m.access t a q p) r' = 0 := by
      rw [outdated, hAfter.1, hAfter.2, if_neg (hCurrent r')]
    rw [hRounds, hAgain, hZero]
    exact Nat.zero_le _
  | false =>
    obtain ⟨hHead, hTail, hCell⟩ := h.still hStep h' hMove hProgress
    have hSame := p.outdated_congr hHead hTail (hCell _ (mod_lt c (m.note t p)))
    cases hAgain : (m.pc t).again p with
    | true =>
      have hZero := h.outdated_of_again hTimely hStep h' hMove hAgain
      rw [hRounds, hAgain, hZero, System.causes]
      obtain hOutdated | hFails | hWaits := h.justified hTimely hStep hAgain
      · have hOne : outdated t m r = 1 := if_pos hOutdated
        simp only [if_true]
        omega
      · have hOne : m.spuriousFailures (fun u => u = t) (.step t spurious) = 1 := by
          simp [System.spuriousFailures, System.steps_eq hStep, hFails]
        simp only [if_true]
        omega
      · have hOne : m.waits t (.step t spurious) = 1 := by
          rw [System.waits, if_pos hWaits, hRounds, hAgain, if_pos rfl]
        simp only [if_true]
        omega
    | false =>
      have hMono : outdated t (m.access t a q p) r' ≤ outdated t m r := by
        apply outdated_mono
        rw [hAfter.1, hAfter.2]
        intro hOutdated
        exact (h.outdated_step hTimely hStep (hSame.mp hOutdated)).2
      rw [hRounds, hAgain]
      simp only [Bool.false_eq_true, if_false]
      omega

theorem Represents.round_pays_other (h : Represents m r) {spurious : Bool}
    {a : Access} {q : Queue c α} {p : Pc c α} (hne : t ≠ u)
    (hStep : (m.pc u).step m.queue spurious = some (a, q, p))
    (h' : Represents (m.access u a q p) r') (hMove : Move c u r (m.pc u) r' p) :
    m.rounds (fun u => u = t) (.step u spurious) + outdated t (m.access u a q p) r' ≤
      System.causes t m.toSystem (.step u spurious) + outdated t m r := by
  have hRounds : m.rounds (fun u => u = t) (.step u spurious) = 0 := by
    simp [System.rounds, System.steps_eq hStep, Ne.symm hne]
  rw [hRounds, System.causes]
  cases hProgress : a.progresses with
  | true =>
    have hOne : m.progress (fun u => u ≠ t) (.step u spurious) = 1 := by
      simp [System.progress, System.steps_eq hStep, Ne.symm hne, hProgress]
    have hAfter := outdated_le_one t (m.access u a q p) r'
    omega
  | false =>
    obtain ⟨hHead, hTail, hCell⟩ := h.still hStep h' hMove hProgress
    have hMono : outdated t (m.access u a q p) r' ≤ outdated t m r := by
      apply outdated_mono
      simp only [Monitored.access, Function.update_of_ne hne]
      exact ((m.pc t).outdated_congr hHead hTail (hCell _ (mod_lt c _))).mp
    omega

theorem outdated_repoint {p : Pc c α} (hp : ∀ k, ¬ p.Outdated r k) (t : ι) :
    outdated t { m with pc := Function.update m.pc u p } r ≤ outdated t m r := by
  apply outdated_mono
  obtain rfl | hne := eq_or_ne t u
  · simp only [Function.update_self]
    exact fun hOutdated => absurd hOutdated (hp _)
  · simp only [Function.update_of_ne hne]
    exact id

variable [DecidableEq α]

theorem Represents.round_pays {l : Label ι α} (h : Represents m r)
    (hStep : m.timelyStep l = some m') (t : ι) :
    ∃ r', Represents m' r' ∧ m.rounds (fun u => u = t) l + outdated t m' r' ≤
      System.causes t m.toSystem l + outdated t m r := by
  obtain ⟨u, op, rfl, hIdle, rfl⟩ |
    ⟨u, spurious, a, q, p, rfl, hTimely, hAccess, rfl⟩ | ⟨u, x, rfl, hDone, rfl⟩ :=
      Monitored.timelyStep_cases hStep
  · have hStart : ∀ k, ¬ (op.start : Pc c α).Outdated r k := by
      cases op <;> exact fun _ => id
    exact ⟨r, h.call hIdle op, Nat.add_le_add (Nat.zero_le _) (outdated_repoint hStart t)⟩
  · obtain ⟨r', h', hMove⟩ := h.advances hTimely hAccess
    refine ⟨r', h', ?_⟩
    obtain rfl | hne := eq_or_ne t u
    · exact h.round_pays_own hTimely hAccess h' hMove
    · exact h.round_pays_other hne hAccess h' hMove
  · have hIdle : ∀ k, ¬ (.idle : Pc c α).Outdated r k := fun _ => id
    exact ⟨r, h.ret hDone, Nat.add_le_add (Nat.zero_le _) (outdated_repoint hIdle t)⟩

theorem Represents.rounds_le {labels : List (Label ι α)} (h : Represents m r)
    (hRun : m.TimelyRun labels m') (t : ι) :
    Runs.total System.step (System.rounds fun u => u = t) m.toSystem labels ≤
      Runs.total System.step (System.spuriousFailures fun u => u = t) m.toSystem labels +
      Runs.total System.step (System.waits t) m.toSystem labels +
      Runs.total System.step (System.progress fun u => u ≠ t) m.toSystem labels +
      outdated t m r := by
  obtain ⟨r', -, hSum⟩ := Runs.total_potential (R := Represents)
    (fun m : Monitored c ι α => m.rounds fun u => u = t)
    (fun m => System.causes t m.toSystem) (outdated t)
    (fun _ _ _ _ h hStep => h.round_pays hStep t) h hRun
  have hMap := fun cost : System c ι α → Label ι α → ℕ =>
    Runs.total_map Monitored.toSystem cost
      (fun _ _ _ => Monitored.timelyStep_toSystem) hRun
  rw [hMap (System.rounds fun u => u = t), hMap (System.causes t)] at hSum
  unfold System.causes at hSum
  rw [Runs.total_add, Runs.total_add] at hSum
  omega

theorem Monitored.TimelyRun.rounds_le {labels : List (Label ι α)}
    (hRun : (Monitored.new c ι α).TimelyRun labels m) (t : ι) :
    Runs.total System.step (System.rounds fun u => u = t) (.new c ι α) labels ≤
      Runs.total System.step (System.spuriousFailures fun u => u = t) (.new c ι α) labels +
      Runs.total System.step (System.waits t) (.new c ι α) labels +
      Runs.total System.step (System.progress fun u => u ≠ t) (.new c ι α) labels := by
  have hSum := (Represents.new c ι α).rounds_le hRun t
  have hStart : outdated t (Monitored.new c ι α) (Ring.start ι α) = 0 := if_neg id
  rwa [hStart] at hSum

theorem Represents.begun {l : Label ι α} (h : Represents m r) (hStep : m.timelyStep l = some m')
    (hBegins : 0 < m.begins t l) : ∃ r', Represents m' r' ∧ outdated t m' r' = 0 := by
  obtain ⟨u, op, rfl, hIdle, rfl⟩ |
    ⟨u, spurious, a, q, p, rfl, hTimely, hAccess, rfl⟩ | ⟨u, x, rfl, hDone, rfl⟩ :=
      Monitored.timelyStep_cases hStep
  · have hThread : u = t := by
      by_contra hne
      simp [System.begins, Label.calls, System.rounds, System.steps, hne] at hBegins
    subst hThread
    exact ⟨r, h.call hIdle op, outdated_call op⟩
  · have hAgain : u = t ∧ (m.pc u).again p = true := by
      by_contra hNot
      simp [System.begins, Label.calls, System.rounds, System.steps_eq hAccess, hNot] at hBegins
    obtain ⟨rfl, hAgain⟩ := hAgain
    obtain ⟨r', h', hMove⟩ := h.advances hTimely hAccess
    exact ⟨r', h', h.outdated_of_again hTimely hAccess h' hMove hAgain⟩
  · cases hBegins

/-- In every timely run, the rounds of a thread beyond the first of each call are at most as
many as its spurious failures, its rounds spent on a slot that another call owns, and the
steps forward of the other threads. The same holds from the beginning of any round on; so each
further round has one of these causes since the round before it began. -/
theorem rounds_justified {labels : List (Label ι α)}
    (hRun : (Monitored.new c ι α).TimelyRun labels m) (t : ι) :
    Runs.total System.step (System.rounds fun u => u = t) (.new c ι α) labels ≤
      Runs.total System.step (System.spuriousFailures fun u => u = t) (.new c ι α) labels +
      Runs.total System.step (System.waits t) (.new c ι α) labels +
      Runs.total System.step (System.progress fun u => u ≠ t) (.new c ι α) labels ∧
    ∀ before l after s s', labels = before ++ l :: after →
      Runs.exec System.step (.new c ι α) before = some s → s.step l = some s' →
      0 < s.begins t l →
      Runs.total System.step (System.rounds fun u => u = t) s' after ≤
        Runs.total System.step (System.spuriousFailures fun u => u = t) s' after +
        Runs.total System.step (System.waits t) s' after +
        Runs.total System.step (System.progress fun u => u ≠ t) s' after := by
  refine ⟨hRun.rounds_le t, ?_⟩
  rintro before l after s s' rfl hBefore hStep hBegins
  obtain ⟨m₀, hRun₀, hRest⟩ := Runs.exec_append_eq_some.mp hRun
  obtain ⟨m₁, hStep₁, hAfter⟩ := Runs.exec_cons_eq_some.mp hRest
  cases hBefore.symm.trans (Monitored.TimelyRun.toSystem hRun₀)
  cases hStep.symm.trans (Monitored.timelyStep_toSystem hStep₁)
  obtain ⟨r₀, h₀⟩ := Monitored.TimelyRun.represents hRun₀ ⟨_, Represents.new c ι α⟩
  obtain ⟨r₁, h₁, hFresh⟩ := h₀.begun hStep₁ hBegins
  have hSum := h₁.rounds_le hAfter t
  rwa [hFresh] at hSum

/-- The pop of thread 1 goes round three times. -/
theorem rounds_justified_waitingPop :
    3 ≤ Runs.total System.step (System.spuriousFailures fun u => u = 1) (.new .one (Fin 2) ℕ)
        waitingPop +
      Runs.total System.step (System.waits 1) (.new .one (Fin 2) ℕ) waitingPop +
      Runs.total System.step (System.progress fun u => u ≠ 1) (.new .one (Fin 2) ℕ) waitingPop := by
  have hRounds : Runs.total System.step (System.rounds fun u => u = 1) (.new .one (Fin 2) ℕ)
      waitingPop = 3 := by decide
  rw [← hRounds]
  exact (rounds_justified
    (m := (Runs.exec Monitored.timelyStep (.new .one (Fin 2) ℕ) waitingPop).get (by decide))
    (Option.some_get _).symm 1).1

end Costs

end NureQueue
