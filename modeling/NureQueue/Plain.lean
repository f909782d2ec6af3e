import NureQueue.Ownership
import NureQueue.Rest

/-! # Runs without force_push

Head and tail then move one at a time, tail only by the exchange of a push and head only
by the exchange of a pop.
-/

namespace NureQueue

universe u v

variable {c : Config} {ι : Type v} {α : Type u}

def Pc.forces : Pc c α → Prop
  | .pushLoad f _ | .pushStamp f _ _ | .pushCas f _ _ | .pushWrite f _ _ | .pushPublish f _ =>
    f = .forcePush
  | .forceCas .. | .forceStore .. | .forceReplace .. | .forcePublish .. | .done (.forcePush _) =>
    True
  | _ => False

theorem Pc.not_forces_step {p p' : Pc c α} {q q' : Queue c α} {spurious : Bool} {a : Access}
    (hStep : p.step q spurious = some (a, q', p')) (h : ¬ p.forces) : ¬ p'.forces := by
  cases p with
  | idle | done => cases hStep
  | pushLoad f | pushWrite f =>
    cases hStep
    exact h
  | pushPublish f =>
    cases hStep
    cases f with
    | push => exact id
    | forcePush => exact absurd rfl h
  | pushStamp f =>
    cases hStep
    cases f with
    | push => split_ifs <;> nofun
    | forcePush => exact absurd rfl h
  | pushCas f =>
    rw [Pc.step] at hStep
    split at hStep <;> cases hStep <;> exact h
  | popCas =>
    rw [Pc.step] at hStep
    split at hStep <;> cases hStep <;> exact id
  | fullLoad =>
    cases hStep
    split_ifs
    · exact id
    · nofun
  | popStamp | popTail | lenCheck =>
    cases hStep
    split_ifs <;> exact id
  | forceCas | forceStore | forceReplace | forcePublish => exact absurd trivial h
  | _ =>
    cases hStep
    exact id

def Label.plain : Label ι α → Prop
  | .call _ (.forcePush _) => False
  | _ => True

instance : DecidablePred (Label.plain : Label ι α → Prop)
  | .call _ (.forcePush _) => .isFalse id
  | .call _ (.push _) | .call _ .pop | .call _ .isEmpty | .call _ .isFull | .call _ .len
  | .step _ _ | .ret _ _ => .isTrue trivial

/-- A represented state in which no thread is in a `force_push`. -/
structure Plain (m : Monitored c ι α) (r : Ring ι α) : Prop where
  represents : Represents m r
  forces : ∀ t, ¬ (m.pc t).forces

section Plain

variable {m m' : Monitored c ι α} {r r' : Ring ι α} {t : ι}

theorem Plain.half (h : Plain m r) : r.half = none := by
  cases hHalf : r.half with
  | none => rfl
  | some t =>
    obtain ⟨value, tail, hPc⟩ := h.represents.half t hHalf
    have hForces := h.forces t
    rw [hPc] at hForces
    exact absurd trivial hForces

theorem Plain.move (h : Plain m r) {p' : Pc c α} (hMove : Move c t r (m.pc t) r' p') :
    (r'.head = r.head ∧ r'.tail = r.tail) ∨ (r'.head = r.head + 1 ∧ r'.tail = r.tail) ∨
      (r'.head = r.head ∧ r'.tail = r.tail + 1) := by
  have hForces := h.forces t
  generalize m.pc t = p at hMove hForces
  cases hMove with
  | claimForce | storeTail => exact absurd trivial hForces
  | claimPush => exact .inr (.inr ⟨rfl, rfl⟩)
  | claimPop => exact .inr (.inl ⟨rfl, rfl⟩)
  | _ => exact .inl ⟨rfl, rfl⟩

theorem Represents.plain (h : Represents m r) (hQuiet : ∀ t, m.pc t = .idle) :
    Plain m r ∧ AtRest c r m.queue := by
  constructor
  · refine ⟨h, fun t => ?_⟩
    rw [hQuiet]
    exact id
  · apply h.atRest
    intro t
    rw [hQuiet]
    rfl

variable [DecidableEq ι]

theorem forces_update {pc : ι → Pc c α} (h : ∀ t, ¬ (pc t).forces) {t : ι} {p : Pc c α}
    (hp : ¬ p.forces) : ∀ u, ¬ (Function.update pc t p u).forces :=
  (Function.forall_update_iff pc fun _ p => ¬ p.forces).mpr ⟨hp, fun u _ => h u⟩

theorem Plain.access (h : Plain m r) (hTimely : m.Timely t) {spurious : Bool} {a : Access}
    {q : Queue c α} {p : Pc c α}
    (hAccess : (m.pc t).step m.queue spurious = some (a, q, p)) :
    ∃ r', Plain (m.access t a q p) r' ∧ Move c t r (m.pc t) r' p := by
  obtain ⟨r', hNext, hMove⟩ := h.represents.advances hTimely hAccess
  exact ⟨r', ⟨hNext, forces_update h.forces (Pc.not_forces_step hAccess (h.forces t))⟩, hMove⟩

theorem Plain.call (h : Plain m r) (hIdle : m.pc t = .idle) {op : Op α}
    (hPlain : (Label.call t op).plain) :
    Plain { m with pc := Function.update m.pc t op.start } r := by
  refine ⟨h.represents.call hIdle op, forces_update h.forces ?_⟩
  cases op with
  | forcePush => cases hPlain
  | push => nofun
  | _ => exact id

theorem Plain.ret (h : Plain m r) {x : Ret α} (hDone : m.pc t = .done x) :
    Plain { m with pc := Function.update m.pc t .idle } r :=
  ⟨h.represents.ret hDone, forces_update h.forces id⟩

variable [DecidableEq α]

theorem Plain.timelyStep (h : Plain m r) {l : Label ι α} (hPlain : l.plain)
    (hStep : m.timelyStep l = some m') :
    ∃ r', Plain m' r' ∧ ((r'.head = r.head ∧ r'.tail = r.tail) ∨
      (r'.head = r.head + 1 ∧ r'.tail = r.tail) ∨
      (r'.head = r.head ∧ r'.tail = r.tail + 1)) := by
  obtain ⟨t, op, rfl, hIdle, rfl⟩ |
    ⟨t, spurious, a, q, p, rfl, hTimely, hAccess, rfl⟩ | ⟨t, x, rfl, hDone, rfl⟩ :=
      Monitored.timelyStep_cases hStep
  · exact ⟨r, h.call hIdle hPlain, .inl ⟨rfl, rfl⟩⟩
  · obtain ⟨r', hNext, hMove⟩ := h.access hTimely hAccess
    exact ⟨r', hNext, h.move hMove⟩
  · exact ⟨r, h.ret hDone, .inl ⟨rfl, rfl⟩⟩

end Plain

end NureQueue
