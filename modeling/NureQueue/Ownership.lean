import NureQueue.Steps

/-! # Every timely run represents a ring, and each slot has one owner -/

namespace NureQueue

universe u v

variable {c : Config} {ι : Type v} {α : Type u}

theorem Represents.new (c : Config) (ι : Type v) (α : Type u) :
    Represents (Monitored.new c ι α) (Ring.start ι α) where
  ok := Ring.start_ok
  head := rfl
  tail := rfl
  mem := Mem.new c ι α
  locals _ := trivial
  holder _ _ _ hHeld := by cases hHeld
  half _ hHalf := by cases hHalf

section Owners

variable {m : Monitored c ι α} {r : Ring ι α} {t u : ι} {i : ℕ}

theorem Represents.owner (h : Represents m r) (hOwns : (m.pc t).owns = some i) :
    i < c.N ∧ (r.cell i).hold.holder = some t := by
  have hLocal := h.locals t
  cases hPc : m.pc t with
  | pushWrite | pushPublish | popRead | popPublish =>
    rw [hPc] at hOwns hLocal
    obtain ⟨rfl, hCell, -⟩ := hLocal
    cases hOwns
    rw [c.index_enc]
    exact ⟨mod_lt c _, by rw [hCell]; rfl⟩
  | forceStore | forceReplace | forcePublish =>
    rw [hPc] at hOwns hLocal
    obtain ⟨p, hp, rfl, hCell, -⟩ := hLocal
    cases hOwns
    rw [c.index_enc, hp, Nat.add_mod_right]
    exact ⟨mod_lt c _, by rw [hCell]; rfl⟩
  | _ =>
    rw [hPc] at hOwns
    cases hOwns

theorem Represents.holder_iff (h : Represents m r) (hi : i < c.N) :
    (r.cell i).hold.holder = some t ↔ (m.pc t).owns = some i :=
  ⟨h.holder i hi t, fun hOwns => (h.owner hOwns).2⟩

theorem Represents.held_iff (h : Represents m r) (hi : i < c.N) :
    (r.cell i).hold.holder ≠ none ↔ ∃ t, (m.pc t).owns = some i := by
  rw [Option.ne_none_iff_exists']
  exact exists_congr fun _ => h.holder_iff hi

theorem Represents.owner_unique (h : Represents m r) (ht : (m.pc t).owns = some i)
    (hu : (m.pc u).owns = some i) : t = u :=
  Option.some.inj ((h.owner ht).2.symm.trans (h.owner hu).2)

end Owners

/-- What the safety comments on the accesses to a slot's value rely on. -/
def Access.Safe (q : Queue c α) : Access → Prop
  | .writeValue i => (q.buffer i).value = none
  | .readValue i | .replaceValue i => (q.buffer i).value.isSome
  | _ => True

section Accesses

variable {m : Monitored c ι α} {r : Ring ι α} {t : ι} {spurious : Bool}
variable {a : Access} {q : Queue c α} {p : Pc c α}

theorem Carried.isSome {k : ℕ} {content : MaybeUninit α} (h : Carried r k content) :
    content.isSome := by
  obtain ⟨x, -, rfl⟩ := h
  rfl

theorem Represents.access_safe (h : Represents m r)
    (hStep : (m.pc t).step m.queue spurious = some (a, q, p)) : a.Safe m.queue := by
  have hLocal := h.locals t
  cases hPc : m.pc t with
  | pushWrite =>
    rw [hPc] at hStep hLocal
    obtain ⟨rfl, -, hNone, -⟩ := hLocal
    cases hStep
    rw [c.index_enc]
    exact hNone
  | popRead =>
    rw [hPc] at hStep hLocal
    obtain ⟨rfl, -, hCarried⟩ := hLocal
    cases hStep
    rw [c.index_enc]
    exact hCarried.isSome
  | forceReplace =>
    rw [hPc] at hStep hLocal
    obtain ⟨k, hk, rfl, -, -, hCarried, -⟩ := hLocal
    cases hStep
    rw [c.index_enc, hk, Nat.add_mod_right]
    exact hCarried.isSome
  | pushCas | forceCas | lenCheck =>
    rw [hPc, Pc.step] at hStep
    split at hStep <;> cases hStep <;> trivial
  | popCas =>
    rw [hPc, Pc.step] at hStep
    split at hStep <;> cases hStep <;> trivial
  | _ =>
    rw [hPc] at hStep
    cases hStep <;> trivial

/-- A call comes to own a slot by winning an exchange, and owns it until it stores a stamp. -/
theorem Pc.owns_step {q₀ : Queue c α} {p₀ : Pc c α} (hStep : p₀.step q₀ spurious = some (a, q, p)) :
    p.owns = p₀.owns ∨ (p₀.owns = none ∧ (a = .casTail true ∨ a = .casHead true)) ∨
      ∃ i, p₀.owns = some i ∧ a = .storeStamp i ∧ p.owns = none := by
  cases p₀ with
  | idle | done => cases hStep
  | pushPublish | forcePublish | popPublish =>
    cases hStep
    exact .inr (.inr ⟨_, rfl, rfl, rfl⟩)
  | pushStamp f =>
    cases hStep
    refine .inl ?_
    split
    · rfl
    · cases f <;> split <;> rfl
  | pushCas | forceCas | popCas =>
    rw [Pc.step] at hStep
    split at hStep <;> cases hStep
    · exact .inr (.inl ⟨rfl, by simp⟩)
    · exact .inl rfl
  | fullLoad | popTail | lenCheck =>
    rw [Pc.step] at hStep
    cases hStep
    refine .inl ?_
    split <;> rfl
  | popStamp =>
    rw [Pc.step] at hStep
    cases hStep
    refine .inl ?_
    split
    · rfl
    · split <;> rfl
  | _ =>
    cases hStep
    exact .inl rfl

end Accesses

section Runs

variable [DecidableEq ι]

theorem Represents.repoint {m : Monitored c ι α} {r : Ring ι α} {t : ι} {p : Pc c α}
    (h : Represents m r) (hOwns : (m.pc t).owns = none)
    (hLocal : Local c r m.queue t (m.seen t) p) :
    Represents { m with pc := Function.update m.pc t p } r where
  ok := h.ok
  head := h.head
  tail := h.tail
  mem := h.mem
  locals := by
    intro u
    obtain rfl | hu := eq_or_ne u t
    · simpa using hLocal
    · simpa [hu] using h.locals u
  holder := by
    intro i hi u hHeld
    obtain rfl | hu := eq_or_ne u t
    · exact absurd hHeld (h.holder_ne hOwns i hi)
    · simpa [hu] using h.holder i hi u hHeld
  half := by
    intro u hHalf
    obtain rfl | hu := eq_or_ne u t
    · exact absurd hHalf (h.half_ne hOwns)
    · simpa [hu] using h.half u hHalf

theorem Represents.call {m : Monitored c ι α} {r : Ring ι α} {t : ι} (h : Represents m r)
    (hIdle : m.pc t = .idle) (op : Op α) :
    Represents { m with pc := Function.update m.pc t op.start } r := by
  apply h.repoint
  · rw [hIdle]
    rfl
  · cases op <;> trivial

theorem Represents.ret {m : Monitored c ι α} {r : Ring ι α} {t : ι} (h : Represents m r)
    {x : Ret α} (hDone : m.pc t = .done x) :
    Represents { m with pc := Function.update m.pc t .idle } r := by
  apply h.repoint
  · rw [hDone]
    rfl
  · trivial

variable [DecidableEq α] {m m' : Monitored c ι α}

theorem Represents.timelyStep {r : Ring ι α} {l : Label ι α} (h : Represents m r)
    (hStep : m.timelyStep l = some m') : ∃ r', Represents m' r' := by
  obtain ⟨t, op, -, hIdle, rfl⟩ |
    ⟨t, spurious, a, q, p, -, hTimely, hAccess, rfl⟩ | ⟨t, x, -, hDone, rfl⟩ :=
      Monitored.timelyStep_cases hStep
  · exact ⟨r, h.call hIdle op⟩
  · obtain ⟨r', hNext, -⟩ := h.advances hTimely hAccess
    exact ⟨r', hNext⟩
  · exact ⟨r, h.ret hDone⟩

theorem Monitored.TimelyRun.represents {labels : List (Label ι α)} (hRun : m.TimelyRun labels m')
    (h : ∃ r, Represents m r) : ∃ r, Represents m' r :=
  Runs.exec_invariant (P := fun m => ∃ r, Represents m r)
    (fun _ _ _ ⟨_, hRing⟩ hStep => hRing.timelyStep hStep) hRun h

theorem Monitored.Reachable.represents (hReach : m.Reachable) : ∃ r, Represents m r := by
  obtain ⟨labels, hRun⟩ := hReach
  exact hRun.represents ⟨_, Represents.new c ι α⟩

/-- In every reachable state a slot has at most one owner, and the value of a slot is
written only where no live value is and taken only where one is. -/
theorem exclusive_slots (hReach : m.Reachable) :
    (∀ t u i, (m.pc t).owns = some i → (m.pc u).owns = some i → t = u) ∧
    (∀ t spurious a q p, (m.pc t).step m.queue spurious = some (a, q, p) → a.Safe m.queue) := by
  obtain ⟨r, h⟩ := hReach.represents
  constructor
  · intro t u i ht hu
    exact h.owner_unique ht hu
  · intro t spurious a q p hStep
    exact h.access_safe hStep

/-- Thread 0 is about to replace the value of the slot that it has taken from a full ring,
while thread 1 waits for that slot. -/
def replacing : List (Label (Fin 2) ℕ) :=
  [Label.call 0 (.push 1)] ++ List.replicate 5 (Label.step 0 false) ++
  [Label.ret 0 .pushOk, Label.call 0 (.forcePush 2), Label.call 1 .pop, Label.step 1 false] ++
  List.replicate 4 (Label.step 0 false)

theorem exclusive_slots_replacing :
    let m := (Runs.exec Monitored.timelyStep (.new .one (Fin 2) ℕ) replacing).get (by decide)
    (∀ t u i, (m.pc t).owns = some i → (m.pc u).owns = some i → t = u) ∧
    (∀ t spurious a q p, (m.pc t).step m.queue spurious = some (a, q, p) → a.Safe m.queue) :=
  exclusive_slots ⟨replacing, (Option.some_get _).symm⟩

end Runs

end NureQueue
