import Mathlib.Data.List.Infix
import Mathlib.Logic.Function.Basic

/-! # The ring of positions

What the queue is for, without words and wraps: head and tail are unbounded positions,
position p is served by slot p % N, and each slot is at every moment either at rest or
held by one thread. The log has every value accepted so far, at the position it was
given; the elements stored are the log from head on. A `force_push` on a full ring
moves head first and tail later; `half` is the thread between these two moves.
-/

namespace NureQueue

universe u v

variable {ι : Type v} {α : Type u} {N : ℕ}

inductive Hold (ι : Type v) where
  | free
  | pushing (t : ι)
  | stored
  | popping (t : ι)
  | forcing (t : ι)

namespace Hold

/-- Whether the stamp is that of a written slot. -/
def bit : Hold ι → ℕ
  | .free | .pushing _ => 0
  | .stored | .popping _ | .forcing _ => 1

theorem bit_le_one (x : Hold ι) : x.bit ≤ 1 := by
  cases x <;> simp [bit]

def holder : Hold ι → Option ι
  | .free | .stored => none
  | .pushing t | .popping t | .forcing t => some t

end Hold

/-- The position a slot was last stamped for, and its state since. -/
structure Cell (ι : Type v) where
  pos : ℕ
  hold : Hold ι

/-- The stamps that a slot carries, in their order. -/
def Cell.version (x : Cell ι) : ℕ := 2 * x.pos + x.hold.bit

structure Ring (ι : Type v) (α : Type u) where
  head : ℕ
  tail : ℕ
  cell : ℕ → Cell ι
  log : List α
  half : Option ι

namespace Ring

/-- Where head and tail may be while a slot is in a given state. -/
def Fits (N : ℕ) (r : Ring ι α) (x : Cell ι) : Prop :=
  match x.hold with
  | .free => r.tail ≤ x.pos ∧ x.pos < r.head + N
  | .pushing _ | .stored => r.head ≤ x.pos ∧ x.pos < r.tail
  | .popping _ => x.pos < r.head ∧ r.tail ≤ x.pos + N
  | .forcing t => x.pos < r.head ∧ r.head ≤ x.pos + N ∧
      (r.half = some t → r.tail = x.pos + N) ∧ (r.half ≠ some t → x.pos + N < r.tail)

/-- The invariant of the ring. -/
structure Ok (N : ℕ) (r : Ring ι α) : Prop where
  head_le : r.head ≤ r.tail
  tail_le : r.tail ≤ r.head + N
  pos_mod : ∀ i < N, (r.cell i).pos % N = i
  fits : ∀ i < N, r.Fits N (r.cell i)
  half : ∀ t, r.half = some t → (r.cell (r.tail % N)).hold = .forcing t
  log_length : r.log.length = r.tail + if r.half.isSome then 1 else 0

/-- The elements stored, oldest first. -/
def items (r : Ring ι α) : List α := r.log.drop r.head

/-- What a step of thread t leaves as it is for all other threads. -/
structure Extends (N : ℕ) (t : ι) (r r' : Ring ι α) : Prop where
  head : r.head ≤ r'.head
  tail : r.tail ≤ r'.tail
  version : ∀ i < N, (r.cell i).version ≤ (r'.cell i).version
  log : r.log <+: r'.log
  held : ∀ i u, u ≠ t →
    (r.cell i).hold.holder = some u ∨ (r'.cell i).hold.holder = some u → r'.cell i = r.cell i
  half : ∀ u, u ≠ t → (r'.half = some u ↔ r.half = some u)

theorem Extends.refl (t : ι) (r : Ring ι α) : Extends N t r r where
  head := le_rfl
  tail := le_rfl
  version _ _ := le_rfl
  log := List.prefix_rfl
  held _ _ _ _ := rfl
  half _ _ := Iff.rfl

def start (ι : Type v) (α : Type u) : Ring ι α where
  head := 0
  tail := 0
  cell i := ⟨i, .free⟩
  log := []
  half := none

def claimPush (N : ℕ) (r : Ring ι α) (t : ι) (v : α) : Ring ι α :=
  { r with
    tail := r.tail + 1
    cell := Function.update r.cell (r.tail % N) ⟨r.tail, .pushing t⟩
    log := r.log ++ [v] }

def claimPop (N : ℕ) (r : Ring ι α) (t : ι) : Ring ι α :=
  { r with
    head := r.head + 1
    cell := Function.update r.cell (r.head % N) ⟨r.head, .popping t⟩ }

def claimForce (N : ℕ) (r : Ring ι α) (t : ι) (v : α) : Ring ι α :=
  { r with
    head := r.head + 1
    cell := Function.update r.cell (r.head % N) ⟨r.head, .forcing t⟩
    log := r.log ++ [v]
    half := some t }

def storeTail (r : Ring ι α) : Ring ι α :=
  { r with
    tail := r.tail + 1
    half := none }

def settle (N : ℕ) (r : Ring ι α) (k : ℕ) (x : Cell ι) : Ring ι α :=
  { r with cell := Function.update r.cell (k % N) x }

section Cells

variable (r : Ring ι α) (t : ι) (v : α) {i k : ℕ} (x : Cell ι)

@[simp] theorem claimPush_cell_self :
    (r.claimPush N t v).cell (r.tail % N) = ⟨r.tail, .pushing t⟩ := Function.update_self ..

@[simp] theorem claimPop_cell_self :
    (r.claimPop N t).cell (r.head % N) = ⟨r.head, .popping t⟩ := Function.update_self ..

theorem claimPop_cell_of_ne (h : i ≠ r.head % N) :
    (r.claimPop N t).cell i = r.cell i := Function.update_of_ne h ..

@[simp] theorem claimForce_cell_self :
    (r.claimForce N t v).cell (r.head % N) = ⟨r.head, .forcing t⟩ := Function.update_self ..

@[simp] theorem settle_cell_self : (r.settle N k x).cell (k % N) = x := Function.update_self ..

theorem settle_cell_of_ne (h : i ≠ k % N) : (r.settle N k x).cell i = r.cell i :=
  Function.update_of_ne h ..

end Cells

theorem start_ok : (start ι α).Ok N where
  head_le := le_rfl
  tail_le := Nat.zero_le _
  pos_mod i hi := Nat.mod_eq_of_lt hi
  fits i hi := ⟨Nat.zero_le i, by simpa [start] using hi⟩
  half t ht := by cases ht
  log_length := rfl

theorem Ok.pos_ne {r : Ring ι α} (h : r.Ok N) {i k : ℕ} (hi : i < N) (hik : i ≠ k % N) :
    (r.cell i).pos ≠ k ∧ (r.cell i).pos + N ≠ k := by
  have hPos := h.pos_mod i hi
  constructor
  · intro hk
    rw [hk] at hPos
    exact hik hPos.symm
  · intro hk
    rw [← hk, Nat.add_mod_right, hPos] at hik
    exact hik rfl

theorem Ok.near {r : Ring ι α} (h : r.Ok N) {i : ℕ} (hi : i < N) :
    r.head ≤ (r.cell i).pos + N ∧ (r.cell i).pos < r.head + N := by
  have hFits := h.fits i hi
  have hHead := h.head_le
  have hTail := h.tail_le
  unfold Fits at hFits
  split at hFits <;> omega

theorem Ok.pos_eq {r : Ring ι α} (h : r.Ok N) (hN : 0 < N) {k : ℕ}
    (hLow : (r.cell (k % N)).pos < k + N) (hHigh : k < (r.cell (k % N)).pos + N) :
    (r.cell (k % N)).pos = k := by
  have hMod := h.pos_mod (k % N) (Nat.mod_lt k hN)
  have hDiv := Nat.div_add_mod (r.cell (k % N)).pos N
  have hDivK := Nat.div_add_mod k N
  obtain hlt | heq | hgt := Nat.lt_trichotomy ((r.cell (k % N)).pos / N) (k / N)
  · have hLap := Nat.mul_le_mul_left N hlt
    rw [Nat.mul_succ] at hLap
    omega
  · rw [heq] at hDiv
    omega
  · have hLap := Nat.mul_le_mul_left N hgt
    rw [Nat.mul_succ] at hLap
    omega

theorem Ok.half_lt {r : Ring ι α} (h : r.Ok N) (hN : 0 < N) {t : ι} (ht : r.half = some t) :
    r.tail < r.head + N := by
  have hFits := h.fits _ (Nat.mod_lt r.tail hN)
  rw [Fits, h.half t ht] at hFits
  have hTail := hFits.2.2.1 ht
  omega

theorem Ok.items_length {r : Ring ι α} (h : r.Ok N) :
    r.items.length = r.tail - r.head + if r.half.isSome then 1 else 0 := by
  have hHead := h.head_le
  rw [items, List.length_drop, h.log_length]
  omega

/-- The slot at tail is free, with its own stamp, once that stamp was seen. -/
theorem Ok.free_of_version {r : Ring ι α} (h : r.Ok N) (hN : 0 < N)
    (hVersion : 2 * r.tail ≤ (r.cell (r.tail % N)).version) :
    r.cell (r.tail % N) = ⟨r.tail, .free⟩ := by
  have hi := Nat.mod_lt r.tail hN
  have hFits := h.fits _ hi
  have hHead := h.head_le
  have hPos := h.pos_eq hN (k := r.tail)
  rw [Cell.version] at hVersion
  generalize r.cell (r.tail % N) = x at *
  obtain ⟨pos, hold⟩ := x
  cases hold <;> simp only [Fits, Hold.bit] at hFits hVersion hPos
  · rw [hPos (by omega) (by omega)]
  all_goals omega

/-- The slot at head holds the oldest element once the stamp of a later state than the
one that precedes it was seen. -/
theorem Ok.stored_of_version {r : Ring ι α} (h : r.Ok N) (hN : 0 < N)
    (hVersion : 2 * r.head + 1 ≤ (r.cell (r.head % N)).version) :
    r.cell (r.head % N) = ⟨r.head, .stored⟩ := by
  have hi := Nat.mod_lt r.head hN
  have hFits := h.fits _ hi
  have hHead := h.head_le
  have hTail := h.tail_le
  have hPos := h.pos_eq hN (k := r.head)
  rw [Cell.version] at hVersion
  generalize r.cell (r.head % N) = x at *
  obtain ⟨pos, hold⟩ := x
  cases hold <;> simp only [Fits, Hold.bit] at hFits hVersion hPos
  · have hSame := hPos (by omega) (by omega)
    omega
  · have hSame := hPos (by omega) (by omega)
    omega
  · rw [hPos (by omega) (by omega)]
  all_goals omega

section Moves

variable {r : Ring ι α} {t : ι} {v : α}

theorem Fits.tail_succ {r' : Ring ι α} {x : Cell ι} (hFits : r.Fits N x)
    (hne : x.pos ≠ r.tail ∧ x.pos + N ≠ r.tail) (hHead : r'.head = r.head)
    (hTail : r'.tail = r.tail + 1) (hHalf : r'.half = none) : r'.Fits N x := by
  obtain ⟨pos, hold⟩ := x
  cases hold with
  | forcing u =>
    simp only [Fits, hHead, hTail, hHalf] at hFits ⊢ hne
    obtain ⟨hPos, hNear, hSome, hOther⟩ := hFits
    have hNot : r.half ≠ some u := fun hu => hne.2 (hSome hu).symm
    have hLt := hOther hNot
    exact ⟨hPos, hNear, nofun, fun _ => by omega⟩
  | _ =>
    simp only [Fits, hHead, hTail] at hFits ⊢ hne
    omega

theorem Fits.head_succ {r' : Ring ι α} {x : Cell ι} (hFits : r.Fits N x)
    (hne : x.pos ≠ r.head ∧ x.pos + N ≠ r.head) (hHead : r'.head = r.head + 1)
    (hTail : r'.tail = r.tail)
    (hHalf : ∀ u, x.hold = .forcing u → (r'.half = some u ↔ r.half = some u)) :
    r'.Fits N x := by
  obtain ⟨pos, hold⟩ := x
  cases hold with
  | forcing u =>
    simp only [Fits, hHead, hTail, ne_eq, hHalf u rfl] at hFits ⊢ hne
    exact ⟨by omega, by omega, hFits.2.2⟩
  | _ =>
    simp only [Fits, hHead, hTail] at hFits ⊢ hne
    omega

theorem Ok.half_none (h : r.Ok N) (hCell : ∀ u, (r.cell (r.tail % N)).hold ≠ .forcing u) :
    r.half = none := by
  cases hHalf : r.half with
  | none => rfl
  | some u => exact absurd (h.half u hHalf) (hCell u)

theorem Ok.half_none_of_free (h : r.Ok N) (hCell : r.cell (r.tail % N) = ⟨r.tail, .free⟩) :
    r.half = none := by
  apply h.half_none
  intro u hu
  rw [hCell] at hu
  cases hu

theorem Ok.half_none_of_full (h : r.Ok N) (hFull : r.tail = r.head + N)
    (hCell : r.cell (r.head % N) = ⟨r.head, .stored⟩) : r.half = none := by
  apply h.half_none
  intro u hu
  rw [hFull, Nat.add_mod_right, hCell] at hu
  cases hu

/-- Every move updates one slot: what it says of the new cell, and what holds of the others. -/
theorem update_of_lt {P : ℕ → Cell ι → Prop} {k : ℕ} {x : Cell ι} (hSelf : P (k % N) x)
    (hOther : ∀ i < N, i ≠ k % N → P i (r.cell i)) (i : ℕ) (hi : i < N) :
    P i (Function.update r.cell (k % N) x i) := by
  obtain rfl | hne := eq_or_ne i (k % N)
  · rwa [Function.update_self]
  · rw [Function.update_of_ne hne]
    exact hOther i hi hne

theorem Ok.pos_mod_update (h : r.Ok N) {k : ℕ} {x : Cell ι} (hx : x.pos % N = k % N) :
    ∀ i < N, (Function.update r.cell (k % N) x i).pos % N = i :=
  update_of_lt (P := fun i x => x.pos % N = i) hx fun i hi _ => h.pos_mod i hi

theorem Ok.claimPush (h : r.Ok N) (hN : 0 < N)
    (hCell : r.cell (r.tail % N) = ⟨r.tail, .free⟩) : (r.claimPush N t v).Ok N where
  head_le := Nat.le_succ_of_le h.head_le
  tail_le := by
    have hFits := h.fits _ (Nat.mod_lt r.tail hN)
    rw [hCell] at hFits
    exact hFits.2
  pos_mod := h.pos_mod_update rfl
  fits := by
    apply update_of_lt (P := fun _ => (r.claimPush N t v).Fits N)
    · exact ⟨h.head_le, Nat.lt_succ_self _⟩
    · intro i hi hne
      exact (h.fits i hi).tail_succ (h.pos_ne hi hne) rfl rfl (h.half_none_of_free hCell)
  half := by
    intro u hu
    rw [Ring.claimPush, h.half_none_of_free hCell] at hu
    cases hu
  log_length := by
    simp [Ring.claimPush, h.log_length, h.half_none_of_free hCell]

theorem Ok.claimPop (h : r.Ok N) (hN : 0 < N)
    (hCell : r.cell (r.head % N) = ⟨r.head, .stored⟩) : (r.claimPop N t).Ok N where
  head_le := by
    have hFits := h.fits _ (Nat.mod_lt r.head hN)
    rw [hCell] at hFits
    exact hFits.2
  tail_le := by
    have hTail := h.tail_le
    simp only [Ring.claimPop]
    omega
  pos_mod := h.pos_mod_update rfl
  fits := by
    apply update_of_lt (P := fun _ => (r.claimPop N t).Fits N)
    · exact ⟨Nat.lt_succ_self _, h.tail_le⟩
    · intro i hi hne
      exact (h.fits i hi).head_succ (h.pos_ne hi hne) rfl rfl (fun _ _ => Iff.rfl)
  half := by
    intro u hu
    have hForcing := h.half u hu
    have hne : r.tail % N ≠ r.head % N := by
      intro hSame
      rw [hSame, hCell] at hForcing
      cases hForcing
    rw [← hForcing]
    exact congrArg Cell.hold (claimPop_cell_of_ne r t hne)
  log_length := h.log_length

theorem Ok.claimForce (h : r.Ok N) (hN : 0 < N) (hFull : r.tail = r.head + N)
    (hCell : r.cell (r.head % N) = ⟨r.head, .stored⟩)
    (hFree : ∀ i < N, (r.cell i).hold.holder ≠ some t) : (r.claimForce N t v).Ok N where
  head_le := by
    simp only [Ring.claimForce]
    omega
  tail_le := by
    simp only [Ring.claimForce]
    omega
  pos_mod := h.pos_mod_update rfl
  fits := by
    apply update_of_lt (P := fun _ => (r.claimForce N t v).Fits N)
    · exact ⟨Nat.lt_succ_self _, Nat.add_le_add_left hN _, fun _ => hFull, fun hu => absurd rfl hu⟩
    · intro i hi hne
      refine (h.fits i hi).head_succ (h.pos_ne hi hne) rfl rfl ?_
      intro u hu
      have hNone := h.half_none_of_full hFull hCell
      have hut : u ≠ t := by
        intro hut
        apply hFree i hi
        rw [hu, hut]
        rfl
      simp [Ring.claimForce, hNone, Ne.symm hut]
  half := by
    intro u hu
    cases hu
    have hSlot : (r.claimForce N t v).tail % N = r.head % N := by simp [Ring.claimForce, hFull]
    rw [hSlot, claimForce_cell_self]
  log_length := by
    simp [Ring.claimForce, h.log_length, h.half_none_of_full hFull hCell]

theorem Ok.storeTail (h : r.Ok N) (hN : 0 < N) (hHalf : r.half = some t) :
    r.storeTail.Ok N where
  head_le := Nat.le_succ_of_le h.head_le
  tail_le := h.half_lt hN hHalf
  pos_mod := h.pos_mod
  fits := by
    intro i hi
    have hFits := h.fits i hi
    obtain rfl | hne := eq_or_ne i (r.tail % N)
    · have hForcing := h.half t hHalf
      simp only [Fits, Ring.storeTail, hForcing] at hFits ⊢
      have hTail := hFits.2.2.1 hHalf
      exact ⟨hFits.1, hFits.2.1, nofun, fun _ => by omega⟩
    · exact hFits.tail_succ (h.pos_ne hi hne) rfl rfl rfl
  half := nofun
  log_length := by
    have hLength := h.log_length
    simp [hHalf] at hLength
    simp [Ring.storeTail, hLength]

theorem Ok.settle (h : r.Ok N) {k : ℕ} {x : Cell ι} (hPos : x.pos % N = k % N)
    (hFits : r.Fits N x) (hHalf : ∀ u, r.half = some u → (r.cell (k % N)).hold ≠ .forcing u) :
    (r.settle N k x).Ok N where
  head_le := h.head_le
  tail_le := h.tail_le
  pos_mod := h.pos_mod_update hPos
  fits := update_of_lt (P := fun _ => (r.settle N k x).Fits N) hFits fun i hi _ => h.fits i hi
  half := by
    intro u hu
    have hForcing := h.half u hu
    have hne : r.tail % N ≠ k % N := by
      intro hSame
      rw [hSame] at hForcing
      exact hHalf u hu hForcing
    rw [← hForcing]
    exact congrArg Cell.hold (settle_cell_of_ne r x hne)
  log_length := h.log_length

theorem Ok.publish (h : r.Ok N) (hN : 0 < N) {k : ℕ}
    (hCell : r.cell (k % N) = ⟨k, .pushing t⟩) : (r.settle N k ⟨k, .stored⟩).Ok N := by
  refine h.settle rfl ?_ ?_
  · have hFits := h.fits _ (Nat.mod_lt k hN)
    rw [hCell] at hFits
    exact hFits
  · intro u _
    rw [hCell]
    nofun

theorem Ok.release (h : r.Ok N) (hN : 0 < N) {k : ℕ}
    (hCell : r.cell (k % N) = ⟨k, .popping t⟩) : (r.settle N k ⟨k + N, .free⟩).Ok N := by
  apply h.settle (Nat.add_mod_right k N)
  · have hFits := h.fits _ (Nat.mod_lt k hN)
    rw [hCell] at hFits
    exact ⟨hFits.2, Nat.add_lt_add_right hFits.1 N⟩
  · intro u _
    rw [hCell]
    nofun

theorem Ok.publishForce (h : r.Ok N) (hN : 0 < N) {k : ℕ}
    (hCell : r.cell (k % N) = ⟨k, .forcing t⟩) (hHalf : r.half ≠ some t) :
    (r.settle N k ⟨k + N, .stored⟩).Ok N := by
  apply h.settle (Nat.add_mod_right k N)
  · have hFits := h.fits _ (Nat.mod_lt k hN)
    rw [hCell] at hFits
    exact ⟨hFits.2.1, hFits.2.2.2 hHalf⟩
  · intro u hu hForcing
    rw [hCell] at hForcing
    cases hForcing
    exact hHalf hu

theorem version_update {k : ℕ} {x : Cell ι}
    (hVersion : (r.cell (k % N)).version ≤ x.version) (i : ℕ) :
    (r.cell i).version ≤ (Function.update r.cell (k % N) x i).version := by
  obtain rfl | hne := eq_or_ne i (k % N)
  · rwa [Function.update_self]
  · rw [Function.update_of_ne hne]

theorem held_update {k : ℕ} {x : Cell ι}
    (hBefore : ∀ u, u ≠ t → (r.cell (k % N)).hold.holder ≠ some u)
    (hAfter : ∀ u, u ≠ t → x.hold.holder ≠ some u) (i : ℕ) (u : ι) (hu : u ≠ t)
    (hi : (r.cell i).hold.holder = some u ∨
      (Function.update r.cell (k % N) x i).hold.holder = some u) :
    Function.update r.cell (k % N) x i = r.cell i := by
  apply Function.update_of_ne
  intro hne
  rw [hne, Function.update_self] at hi
  exact hi.elim (hBefore u hu) (hAfter u hu)

theorem holder_ne {u : ι} {o : Option ι} (ho : o = some t ∨ o = none) (hu : u ≠ t) :
    o ≠ some u := by
  rintro rfl
  obtain ho | ho := ho
  · exact hu (Option.some.inj ho)
  · cases ho

theorem claimPush_extends (hCell : r.cell (r.tail % N) = ⟨r.tail, .free⟩) :
    Extends N t r (r.claimPush N t v) where
  head := le_rfl
  tail := Nat.le_succ _
  version i _ := version_update (by rw [hCell]; exact le_rfl) i
  log := List.prefix_append _ _
  held := held_update (fun _ hu => holder_ne (.inr (by rw [hCell]; rfl)) hu)
    (fun _ hu => holder_ne (.inl rfl) hu)
  half _ _ := Iff.rfl

theorem claimPop_extends (hCell : r.cell (r.head % N) = ⟨r.head, .stored⟩) :
    Extends N t r (r.claimPop N t) where
  head := Nat.le_succ _
  tail := le_rfl
  version i _ := version_update (by rw [hCell]; exact le_rfl) i
  log := List.prefix_rfl
  held := held_update (fun _ hu => holder_ne (.inr (by rw [hCell]; rfl)) hu)
    (fun _ hu => holder_ne (.inl rfl) hu)
  half _ _ := Iff.rfl

theorem claimForce_extends (hCell : r.cell (r.head % N) = ⟨r.head, .stored⟩)
    (hHalf : r.half = none) : Extends N t r (r.claimForce N t v) where
  head := Nat.le_succ _
  tail := le_rfl
  version i _ := version_update (by rw [hCell]; exact le_rfl) i
  log := List.prefix_append _ _
  held := held_update (fun _ hu => holder_ne (.inr (by rw [hCell]; rfl)) hu)
    (fun _ hu => holder_ne (.inl rfl) hu)
  half u hu := by simp [claimForce, hHalf, Ne.symm hu]

theorem storeTail_extends (hHalf : r.half = some t) : Extends N t r r.storeTail where
  head := le_rfl
  tail := Nat.le_succ _
  version _ _ := le_rfl
  log := List.prefix_rfl
  held _ _ _ _ := rfl
  half u hu := by simp [storeTail, hHalf, Ne.symm hu]

theorem settle_extends {k : ℕ} {x : Cell ι} (hHolder : (r.cell (k % N)).hold.holder = some t)
    (hRest : x.hold.holder = none)
    (hVersion : (r.cell (k % N)).version ≤ x.version) : Extends N t r (r.settle N k x) where
  head := le_rfl
  tail := le_rfl
  version i _ := version_update hVersion i
  log := List.prefix_rfl
  held := held_update (fun _ hu => holder_ne (.inl hHolder) hu)
    (fun _ hu => holder_ne (.inr hRest) hu)
  half _ _ := Iff.rfl

end Moves

end Ring

end NureQueue
