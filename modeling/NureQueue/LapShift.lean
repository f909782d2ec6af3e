import NureQueue.Bounds

/-! # Runs do not depend on the lap

Adding one number of laps to every index word and every stamp commutes with each step of
the system, also with the steps of a checked build. So no run can tell whether it began
with a new queue or with one whose indices are about to wrap.
-/

namespace NureQueue

universe u v

variable {c : Config} {ι : Type v} {α : Type u}

/-- No plain `+` or `-` of the source overflows in the step from this point, the
computations on the way to the access and from it among them. -/
def Pc.checks (q : Queue c α) : Pc c α → Bool
  | .pushStamp _ _ tail =>
    (c.nextChecked tail).isSome &&
      (decide (tail = (q.buffer (c.index tail)).stamp) || (c.indexSucc tail).isSome)
  | .pushPublish _ tail | .forcePublish tail _ => (c.indexSucc tail).isSome
  | .popStamp head =>
    (c.indexSucc head).isSome &&
      (!decide (head + 1 = (q.buffer (c.index head)).stamp) || (c.nextChecked head).isSome)
  | .lenCheck tail head => !decide (q.tail = tail) || (c.lenOfChecked head tail).isSome
  | _ => true

/-- The step in a build where an overflow panics. -/
def Pc.stepChecked (q : Queue c α) (spurious : Bool) (p : Pc c α) :
    Option (Access × Queue c α × Pc c α) :=
  if p.checks q then p.step q spurious else none

def System.stepChecked [DecidableEq ι] [DecidableEq α] (s : System c ι α) :
    Label ι α → Option (System c ι α)
  | .step t spurious =>
    ((s.pc t).stepChecked s.queue spurious).map fun (_, q, p) => ⟨q, Function.update s.pc t p⟩
  | l => s.step l

theorem Pc.checks_of_valid {p : Pc c α} (q : Queue c α) (hValid : ∀ x ∈ p.words, c.Valid x) :
    p.checks q = true := by
  cases p with
  | pushStamp f value tail =>
    have hTail := hValid tail (by simp [words])
    simp [checks, hTail.nextChecked, hTail.indexSucc]
  | pushPublish | forcePublish =>
    have hTail := hValid _ (List.mem_singleton_self _)
    simp [checks, hTail.indexSucc]
  | popStamp head =>
    have hHead := hValid head (by simp [words])
    simp [checks, hHead.nextChecked, hHead.indexSucc]
  | lenCheck tail head =>
    have hTail := hValid tail (by simp [words])
    have hHead := hValid head (by simp [words])
    simp [checks, c.lenOfChecked_eq hHead hTail]
  | _ => rfl

theorem Pc.stepChecked_of_valid {p : Pc c α} (q : Queue c α) (spurious : Bool)
    (hValid : ∀ x ∈ p.words, c.Valid x) : p.stepChecked q spurious = p.step q spurious := by
  rw [Pc.stepChecked, if_pos (p.checks_of_valid q hValid)]

theorem System.Masked.stepChecked [DecidableEq ι] [DecidableEq α] {s : System c ι α}
    (h : s.Masked) (l : Label ι α) : s.stepChecked l = s.step l := by
  cases l with
  | step t spurious =>
    rw [System.stepChecked, Pc.stepChecked_of_valid _ _ (h.words t)]
    rfl
  | call | ret => rfl

/-- `k * one_lap` added to a word, wrapping. -/
def Config.shift (c : Config) (k : ℤ) (x : c.Index) : c.Index :=
  x + BitVec.ofInt c.w k * c.oneLap

def Queue.shift (k : ℤ) (q : Queue c α) : Queue c α where
  head := c.shift k q.head
  tail := c.shift k q.tail
  buffer i := ⟨c.shift k (q.buffer i).stamp, (q.buffer i).value⟩

def Pc.shift (k : ℤ) : Pc c α → Pc c α
  | .idle => .idle
  | .pushLoad f value => .pushLoad f value
  | .pushStamp f value tail => .pushStamp f value (c.shift k tail)
  | .pushCas f value tail => .pushCas f value (c.shift k tail)
  | .pushWrite f value tail => .pushWrite f value (c.shift k tail)
  | .pushPublish f tail => .pushPublish f (c.shift k tail)
  | .fullLoad value tail => .fullLoad value (c.shift k tail)
  | .forceCas value tail => .forceCas value (c.shift k tail)
  | .forceStore value tail => .forceStore value (c.shift k tail)
  | .forceReplace value tail => .forceReplace value (c.shift k tail)
  | .forcePublish tail old => .forcePublish (c.shift k tail) old
  | .popLoad => .popLoad
  | .popStamp head => .popStamp (c.shift k head)
  | .popCas head => .popCas (c.shift k head)
  | .popRead head => .popRead (c.shift k head)
  | .popPublish head msg => .popPublish (c.shift k head) msg
  | .popTail head => .popTail (c.shift k head)
  | .emptyHead => .emptyHead
  | .emptyTail head => .emptyTail (c.shift k head)
  | .fullTail => .fullTail
  | .fullHead tail => .fullHead (c.shift k tail)
  | .lenTail => .lenTail
  | .lenHead tail => .lenHead (c.shift k tail)
  | .lenCheck tail head => .lenCheck (c.shift k tail) (c.shift k head)
  | .done r => .done r

def System.shift (k : ℤ) (s : System c ι α) : System c ι α where
  queue := s.queue.shift k
  pc t := (s.pc t).shift k

namespace Config

variable (k : ℤ) (x y : c.Index)

@[simp] theorem shift_inj : c.shift k x = c.shift k y ↔ x = y := BitVec.add_left_inj _

@[simp] theorem index_shift : c.index (c.shift k x) = c.index x := c.index_add_laps x _

@[simp] theorem next_shift : c.next (c.shift k x) = c.shift k (c.next x) := c.next_add_laps x _

theorem shift_add : c.shift k (x + y) = c.shift k x + y := by
  rw [shift, shift, BitVec.add_assoc, BitVec.add_comm y, BitVec.add_assoc]

theorem shift_sub : c.shift k (x - y) = c.shift k x - y := by
  rw [BitVec.sub_eq_add_neg, shift_add, ← BitVec.sub_eq_add_neg]

@[simp] theorem valid_shift : c.Valid (c.shift k x) ↔ c.Valid x := by
  rw [Valid, Valid, index_shift]

@[simp] theorem lenOf_shift : c.lenOf (c.shift k x) (c.shift k y) = c.lenOf x y := by
  simp only [lenOf, index_shift, shift_inj]

end Config

section Step

variable (k : ℤ) (q : Queue c α) (i : ℕ)

@[simp] theorem Queue.shift_head : (q.shift k).head = c.shift k q.head := rfl

@[simp] theorem Queue.shift_tail : (q.shift k).tail = c.shift k q.tail := rfl

@[simp] theorem Queue.shift_stamp :
    ((q.shift k).buffer i).stamp = c.shift k (q.buffer i).stamp := rfl

@[simp] theorem Queue.shift_value : ((q.shift k).buffer i).value = (q.buffer i).value := rfl

theorem Queue.shift_setValue (value : MaybeUninit α) :
    (q.setValue i value).shift k = (q.shift k).setValue i value := by
  simp only [shift, setValue, Queue.mk.injEq, true_and]
  funext j
  obtain rfl | hne := eq_or_ne j i
  · simp only [Function.update_self]
  · simp only [Function.update_of_ne hne]

theorem Queue.shift_stampStore (x : c.Index) :
    (q.stampStore i x).shift k = (q.shift k).stampStore i (c.shift k x) := by
  simp only [shift, stampStore, Queue.mk.injEq, true_and]
  funext j
  obtain rfl | hne := eq_or_ne j i
  · simp only [Function.update_self]
  · simp only [Function.update_of_ne hne]

@[simp] theorem Pc.shift_words (p : Pc c α) : (p.shift k).words = p.words.map (c.shift k) := by
  cases p <;> rfl

@[simp] theorem Pc.shift_start (op : Op α) : (op.start : Pc c α).shift k = op.start := by
  cases op <;> rfl

/-- A step makes the same access with the same outcome, and goes to the shifted memory and
to the shifted point. -/
theorem Pc.shift_step (spurious : Bool) (p : Pc c α) :
    (p.shift k).step (q.shift k) spurious =
      (p.step q spurious).map fun (a, q', p') => (a, q'.shift k, p'.shift k) := by
  cases p with
  | pushStamp f value tail =>
    simp only [Pc.shift, Pc.step, Config.index_shift, Queue.shift_stamp, Config.shift_inj,
      ← Config.shift_add, Option.map_some]
    split_ifs
    · rfl
    · cases f <;> rfl
    · rfl
  | popStamp head =>
    simp only [Pc.shift, Pc.step, Config.index_shift, Queue.shift_stamp, Config.shift_inj,
      ← Config.shift_add, Option.map_some]
    split_ifs <;> rfl
  -- the exchanges compare shifted words and store the shifted successor
  | pushCas | popCas =>
    simp only [Pc.shift, Pc.step, Queue.shift_tail, Queue.shift_head, Config.shift_inj,
      Config.next_shift]
    split_ifs <;> rfl
  | forceCas value tail =>
    simp only [Pc.shift, Pc.step, Queue.shift_head, ← Config.shift_sub, Config.shift_inj,
      Config.next_shift]
    split_ifs <;> rfl
  | forceStore value tail =>
    simp only [Pc.shift, Pc.step, Config.next_shift]
    rfl
  | pushWrite | forceReplace | popRead => simp [Pc.shift, Pc.step, Queue.shift_setValue]
  | pushPublish | forcePublish | popPublish =>
    simp [Pc.shift, Pc.step, Queue.shift_stampStore, Config.shift_add]
  -- the tests on head and tail
  | fullLoad value tail =>
    simp only [Pc.shift, Pc.step, Queue.shift_head, ← Config.shift_add, Config.shift_inj,
      Option.map_some]
    split_ifs <;> rfl
  | popTail head =>
    simp only [Pc.shift, Pc.step, Queue.shift_tail, Config.shift_inj, Option.map_some]
    split_ifs <;> rfl
  | emptyTail head => simp [Pc.shift, Pc.step]
  | fullHead tail => simp [Pc.shift, Pc.step, ← Config.shift_add]
  | lenCheck tail head =>
    simp only [Pc.shift, Pc.step, Queue.shift_tail, Config.shift_inj, Config.lenOf_shift,
      Option.map_some]
    split_ifs <;> rfl
  | _ => rfl

theorem Pc.shift_eq_idle {p : Pc c α} : p.shift k = .idle ↔ p = .idle := by
  cases p <;> simp [Pc.shift]

theorem Pc.shift_eq_done {p : Pc c α} {r : Ret α} : p.shift k = .done r ↔ p = .done r := by
  cases p <;> simp [Pc.shift]

theorem System.Masked.shift {s : System c ι α} (h : s.Masked) : (s.shift k).Masked where
  head := (c.valid_shift k _).mpr h.head
  tail := (c.valid_shift k _).mpr h.tail
  words t x hx := by
    obtain ⟨y, hy, rfl⟩ := List.mem_map.mp ((s.pc t).shift_words k ▸ hx)
    exact (c.valid_shift k y).mpr (h.words t y hy)

end Step

section Runs

variable [DecidableEq ι] (k : ℤ)

theorem System.shift_update (s : System c ι α) (t : ι) (q : Queue c α) (p : Pc c α) :
    System.shift k ⟨q, Function.update s.pc t p⟩ =
      ⟨q.shift k, Function.update (s.shift k).pc t (p.shift k)⟩ :=
  congrArg (System.mk (q.shift k)) (Function.comp_update (Pc.shift k) s.pc t p)

variable [DecidableEq α]

theorem System.shift_step (s : System c ι α) (l : Label ι α) :
    (s.shift k).step l = (s.step l).map (System.shift k) := by
  cases l with
  | call t op =>
    have hIdle : (s.shift k).pc t = .idle ↔ s.pc t = .idle := Pc.shift_eq_idle k
    simp only [System.step, hIdle]
    split
    · rw [Option.map_some, System.shift_update, Pc.shift_start]
      rfl
    · rfl
  | step t spurious =>
    have hAccess := (s.pc t).shift_step k s.queue spurious
    change ((Pc.shift k (s.pc t)).step (s.queue.shift k) spurious).map _ = _
    rw [hAccess, System.step, Option.map_map, Option.map_map]
    congr 1
    funext x
    exact (System.shift_update k s t x.2.1 x.2.2).symm
  | ret t r =>
    have hDone : (s.shift k).pc t = .done r ↔ s.pc t = .done r := Pc.shift_eq_done k
    simp only [System.step, hDone]
    split
    · rw [Option.map_some, System.shift_update]
      rfl
    · rfl

theorem System.Masked.shift_stepChecked {s : System c ι α} (h : s.Masked) (l : Label ι α) :
    (s.shift k).stepChecked l = (s.stepChecked l).map (System.shift k) := by
  rw [h.stepChecked, (h.shift k).stepChecked, System.shift_step]

theorem System.Masked.exec_shift {s : System c ι α} (h : s.Masked) (labels : List (Label ι α)) :
    Runs.exec System.stepChecked (s.shift k) labels =
      (Runs.exec System.stepChecked s labels).map (System.shift k) := by
  apply Runs.exec_commutes (P := System.Masked) (System.shift k) ?_ ?_ h labels
  · intro s l h
    exact h.shift_stepChecked k l
  · intro s l s' h hStep
    rw [h.stepChecked] at hStep
    exact h.step hStep

/-- Adding k laps to all index words and all stamps commutes with the checked step of each
thread, with the step of the system and with every run: the same labels are enabled, each
access is the same with the same outcome, and the results are the same. -/
theorem lap_shift_invariant {s : System c ι α} (hMasked : s.Masked) :
    (∀ t spurious, ((s.pc t).shift k).stepChecked (s.queue.shift k) spurious =
      ((s.pc t).stepChecked s.queue spurious).map
        fun (a, q, p) => (a, q.shift k, p.shift k)) ∧
    (∀ l, (s.shift k).stepChecked l = (s.stepChecked l).map (System.shift k)) ∧
    (∀ labels, Runs.exec System.stepChecked (s.shift k) labels =
      (Runs.exec System.stepChecked s labels).map (System.shift k)) := by
  refine ⟨?_, hMasked.shift_stepChecked k, hMasked.exec_shift k⟩
  intro t spurious
  have hWords : ∀ x ∈ ((s.pc t).shift k).words, c.Valid x := (hMasked.shift k).words t
  rw [Pc.stepChecked_of_valid _ _ (hMasked.words t), Pc.stepChecked_of_valid _ _ hWords,
    Pc.shift_step]

/-- Thread 1 holds a tail and a head word of a queue that is in the last lap before the words
wrap. -/
theorem lap_shift_invariant_lenAcrossPush :
    let s := (Runs.exec System.step (.new .one (Fin 2) ℕ) lenAcrossPush).get (by decide)
    (∃ tail head, s.pc 1 = .lenCheck tail head) ∧
    (∀ t spurious, ((s.pc t).shift (-1)).stepChecked (s.queue.shift (-1)) spurious =
      ((s.pc t).stepChecked s.queue spurious).map
        fun (a, q, p) => (a, q.shift (-1), p.shift (-1))) ∧
    (∀ l, (s.shift (-1)).stepChecked l = (s.stepChecked l).map (System.shift (-1))) ∧
    (∀ labels, Runs.exec System.stepChecked (s.shift (-1)) labels =
      (Runs.exec System.stepChecked s labels).map (System.shift (-1))) := by
  have hMasked : ∀ s, Runs.exec System.step (System.new .one (Fin 2) ℕ) lenAcrossPush = some s →
      s.Masked := fun _ hRun =>
    Runs.exec_invariant (fun _ _ _ hs hStep => hs.step hStep) hRun (System.Masked.new ..)
  exact ⟨⟨_, _, rfl⟩, lap_shift_invariant (-1) (hMasked _ (Option.some_get _).symm)⟩

end Runs

end NureQueue
