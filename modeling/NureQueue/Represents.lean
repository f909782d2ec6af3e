import NureQueue.Monitor
import NureQueue.Ring

/-! # When a system represents a ring

The words in memory are those of the ring's positions, the slot values are the log
entries of the positions that hold them, and the locals of every thread fit its place
in the ring. The number that goes with a thread's locals is the monitor's note: the
position whose word the thread has loaded.
-/

namespace NureQueue

universe u v

variable {c : Config} {ι : Type v} {α : Type u}

namespace Cell

def stamp (c : Config) (x : Cell ι) : c.Index :=
  match x.hold with
  | .free | .pushing _ => c.enc x.pos
  | .stored | .popping _ | .forcing _ => c.enc x.pos + 1

end Cell

/-- The content is the value of position p. -/
def Carried (r : Ring ι α) (p : ℕ) (content : MaybeUninit α) : Prop :=
  ∃ x, r.log[p]? = some x ∧ content = some x

theorem Carried.mono {r r' : Ring ι α} {p : ℕ} {content : MaybeUninit α}
    (h : Carried r p content) (hLog : r.log <+: r'.log) : Carried r' p content :=
  h.imp fun _ hx => ⟨Runs.getElem?_mono hLog hx.1, hx.2⟩

/-- The memory of the queue is that of the ring. -/
structure Mem (c : Config) (r : Ring ι α) (q : Queue c α) : Prop where
  head : q.head = c.enc r.head
  tail : q.tail = c.enc r.tail
  stamp : ∀ i < c.N, (q.buffer i).stamp = (r.cell i).stamp c
  free : ∀ i < c.N, (r.cell i).hold = .free → (q.buffer i).value = none
  stored : ∀ i < c.N, (r.cell i).hold = .stored → Carried r (r.cell i).pos (q.buffer i).value

namespace Pc

/-- The slot a call owns, from its winning exchange until its store of the stamp. -/
def owns : Pc c α → Option ℕ
  | .pushWrite _ _ tail | .pushPublish _ tail | .forceStore _ tail | .forceReplace _ tail
  | .forcePublish tail _ => some (c.index tail)
  | .popRead head | .popPublish head _ => some (c.index head)
  | _ => none

end Pc

/-- What the locals of thread t say about the ring, where k is the noted position. -/
def Local (c : Config) (r : Ring ι α) (q : Queue c α) (t : ι) (k : ℕ) : Pc c α → Prop
  | .pushStamp _ _ tail | .fullHead tail | .lenHead tail | .lenCheck tail _ =>
    tail = c.enc k ∧ k ≤ r.tail
  | .pushCas _ _ tail =>
    tail = c.enc k ∧ k ≤ r.tail ∧ 2 * k ≤ (r.cell (k % c.N)).version
  | .fullLoad _ tail | .forceCas _ tail =>
    tail = c.enc k ∧ k ≤ r.tail ∧ 2 * k + 1 ≤ (r.cell (k % c.N)).version + 2 * c.N
  | .pushWrite _ value tail =>
    tail = c.enc k ∧ r.cell (k % c.N) = ⟨k, .pushing t⟩ ∧
      (q.buffer (k % c.N)).value = none ∧ r.log[k]? = some value
  | .pushPublish _ tail =>
    tail = c.enc k ∧ r.cell (k % c.N) = ⟨k, .pushing t⟩ ∧ Carried r k (q.buffer (k % c.N)).value
  | .forceStore value tail =>
    ∃ p, k = p + c.N ∧ tail = c.enc k ∧ r.cell (p % c.N) = ⟨p, .forcing t⟩ ∧ r.half = some t ∧
      Carried r p (q.buffer (p % c.N)).value ∧ r.log[k]? = some value
  | .forceReplace value tail =>
    ∃ p, k = p + c.N ∧ tail = c.enc k ∧ r.cell (p % c.N) = ⟨p, .forcing t⟩ ∧ r.half ≠ some t ∧
      Carried r p (q.buffer (p % c.N)).value ∧ r.log[k]? = some value
  | .forcePublish tail old =>
    ∃ p, k = p + c.N ∧ tail = c.enc k ∧ r.cell (p % c.N) = ⟨p, .forcing t⟩ ∧ r.half ≠ some t ∧
      Carried r p old ∧ Carried r k (q.buffer (p % c.N)).value
  | .popStamp head | .emptyTail head => head = c.enc k ∧ k ≤ r.head
  | .popCas head => head = c.enc k ∧ k ≤ r.head ∧ 2 * k + 1 ≤ (r.cell (k % c.N)).version
  | .popTail head => head = c.enc k ∧ k ≤ r.head ∧ 2 * k ≤ (r.cell (k % c.N)).version
  | .popRead head =>
    head = c.enc k ∧ r.cell (k % c.N) = ⟨k, .popping t⟩ ∧ Carried r k (q.buffer (k % c.N)).value
  | .popPublish head msg =>
    head = c.enc k ∧ r.cell (k % c.N) = ⟨k, .popping t⟩ ∧
      (q.buffer (k % c.N)).value = none ∧ Carried r k msg
  | .idle | .done _ | .pushLoad .. | .popLoad | .emptyHead | .fullTail | .lenTail => True

structure Represents (m : Monitored c ι α) (r : Ring ι α) : Prop where
  ok : r.Ok c.N
  head : m.moves .head = r.head
  tail : m.moves .tail = r.tail
  mem : Mem c r m.queue
  locals : ∀ t, Local c r m.queue t (m.seen t) (m.pc t)
  holder : ∀ i < c.N, ∀ t, (r.cell i).hold.holder = some t → (m.pc t).owns = some i
  half : ∀ t, r.half = some t → ∃ value tail, m.pc t = .forceStore value tail

/-- The position k is close enough to head for its word to be told from all words that
a slot can carry. -/
def Recent (c : Config) (r : Ring ι α) (k : ℕ) : Prop :=
  k ≤ r.head + c.N ∧ r.head < k + c.K / 2

/-- The same where the ring may be an earlier one than that of k. -/
def Within (c : Config) (r : Ring ι α) (k : ℕ) : Prop :=
  k < r.head + c.N + c.K / 2 ∧ r.head < k + c.K / 2

section Stamps

variable {r : Ring ι α} {k : ℕ}

theorem Recent.of_head (hk : k ≤ r.head) (hTimely : r.head < k + c.K / 2) : Recent c r k :=
  ⟨by omega, hTimely⟩

theorem Recent.of_tail (h : r.Ok c.N) (hk : k ≤ r.tail) (hTimely : r.tail < k + c.K / 2) :
    Recent c r k := by
  have hHead := h.head_le
  have hTail := h.tail_le
  exact ⟨by omega, by omega⟩

theorem mod_lt (c : Config) (k : ℕ) : k % c.N < c.N := Nat.mod_lt k c.pos

theorem Within.pos_eq (hWithin : Within c r k) (h : r.Ok c.N)
    (hEnc : c.enc (r.cell (k % c.N)).pos = c.enc k) : (r.cell (k % c.N)).pos = k := by
  have hNear := h.near (mod_lt c k)
  have hN := c.pos
  have hK := c.four_mul_N_le_K
  obtain ⟨hLow, hHigh⟩ := hWithin
  exact c.eq_of_enc_eq hEnc (by omega) (by omega)

theorem Within.pos_add_eq (hWithin : Within c r k) (h : r.Ok c.N)
    (hEnc : c.enc ((r.cell (k % c.N)).pos + c.N) = c.enc k) :
    (r.cell (k % c.N)).pos + c.N = k := by
  have hNear := h.near (mod_lt c k)
  have hN := c.pos
  have hK := c.four_mul_N_le_K
  obtain ⟨hLow, hHigh⟩ := hWithin
  exact c.eq_of_enc_eq hEnc (by omega) (by omega)

theorem Within.version_of_stamp (hWithin : Within c r k) (h : r.Ok c.N)
    (hStamp : (r.cell (k % c.N)).stamp c = c.enc k) : (r.cell (k % c.N)).version = 2 * k := by
  have hMod := h.pos_mod _ (mod_lt c k)
  have hPos := hWithin.pos_eq h
  generalize r.cell (k % c.N) = x at *
  obtain ⟨pos, hold⟩ := x
  cases hold with
  | free | pushing =>
    rw [Cell.version, hPos hStamp]
    rfl
  | stored | popping | forcing => exact absurd hStamp (c.enc_succ_ne hMod)

theorem Within.version_of_stamp_succ (hWithin : Within c r k) (h : r.Ok c.N)
    (hStamp : (r.cell (k % c.N)).stamp c = c.enc k + 1) :
    (r.cell (k % c.N)).version = 2 * k + 1 := by
  have hMod := h.pos_mod _ (mod_lt c k)
  have hPos := hWithin.pos_eq h
  generalize r.cell (k % c.N) = x at *
  obtain ⟨pos, hold⟩ := x
  cases hold with
  | free | pushing => exact absurd hStamp.symm (c.enc_succ_ne hMod.symm)
  | stored | popping | forcing =>
    have hSame : pos = k := hPos ((BitVec.add_left_inj 1).mp hStamp)
    rw [Cell.version, hSame]
    rfl

/-- A slot whose stamp is one lap behind the stamp of a written slot of k. -/
theorem Within.version_of_stamp_lap (hWithin : Within c r k) (h : r.Ok c.N)
    (hStamp : (r.cell (k % c.N)).stamp c + c.oneLap = c.enc k + 1) :
    (r.cell (k % c.N)).version + 2 * c.N = 2 * k + 1 := by
  have hMod := h.pos_mod _ (mod_lt c k)
  have hPos := hWithin.pos_add_eq h
  generalize r.cell (k % c.N) = x at *
  obtain ⟨pos, hold⟩ := x
  have hAdd : (pos + c.N) % c.N = k % c.N := by rw [Nat.add_mod_right, hMod]
  cases hold with
  | free | pushing =>
    rw [Cell.stamp, ← c.enc_add_N] at hStamp
    exact absurd hStamp.symm (c.enc_succ_ne hAdd.symm)
  | stored | popping | forcing =>
    have hEnc : c.enc (pos + c.N) = c.enc k := by
      rw [c.enc_add_N]
      rw [Cell.stamp, BitVec.add_assoc, BitVec.add_comm 1, ← BitVec.add_assoc] at hStamp
      exact (BitVec.add_left_inj 1).mp hStamp
    have hSame : pos + c.N = k := hPos hEnc
    rw [Cell.version, ← hSame]
    simp only [Hold.bit]
    omega

theorem Recent.within (h : Recent c r k) : Within c r k := by
  have hN := c.pos
  have hK := c.four_mul_N_le_K
  obtain ⟨hLow, hHigh⟩ := h
  exact ⟨by omega, hHigh⟩

theorem Recent.version_of_stamp (hRecent : Recent c r k) (h : r.Ok c.N)
    (hStamp : (r.cell (k % c.N)).stamp c = c.enc k) : (r.cell (k % c.N)).version = 2 * k :=
  hRecent.within.version_of_stamp h hStamp

theorem Recent.version_of_stamp_succ (hRecent : Recent c r k) (h : r.Ok c.N)
    (hStamp : (r.cell (k % c.N)).stamp c = c.enc k + 1) :
    (r.cell (k % c.N)).version = 2 * k + 1 :=
  hRecent.within.version_of_stamp_succ h hStamp

theorem Recent.version_of_stamp_lap (hRecent : Recent c r k) (h : r.Ok c.N)
    (hStamp : (r.cell (k % c.N)).stamp c + c.oneLap = c.enc k + 1) :
    (r.cell (k % c.N)).version + 2 * c.N = 2 * k + 1 :=
  hRecent.within.version_of_stamp_lap h hStamp

end Stamps

section Memory

variable {r : Ring ι α} {q : Queue c α} {t : ι}

theorem Mem.new (c : Config) (ι : Type v) (α : Type u) :
    Mem c (Ring.start ι α) (Queue.new c α) where
  head := c.enc_zero.symm
  tail := c.enc_zero.symm
  stamp _ hi := (c.enc_of_lt hi).symm
  free _ _ _ := rfl
  stored _ _ hStored := by cases hStored

theorem Mem.claim (h : Mem c r q) {r' : Ring ι α} {q' : Queue c α} {k : ℕ} {x : Cell ι}
    (hHolder : x.hold.holder = some t) (hStamp : x.stamp c = (r.cell (k % c.N)).stamp c)
    (hCell : r'.cell = Function.update r.cell (k % c.N) x) (hLog : r.log <+: r'.log)
    (hHead : q'.head = c.enc r'.head) (hTail : q'.tail = c.enc r'.tail)
    (hBuffer : q'.buffer = q.buffer) : Mem c r' q' where
  head := hHead
  tail := hTail
  stamp i hi := by
    rw [hBuffer, hCell, h.stamp i hi]
    obtain rfl | hne := eq_or_ne i (k % c.N)
    · rw [Function.update_self, hStamp]
    · rw [Function.update_of_ne hne]
  free i hi hFree := by
    rw [hCell] at hFree
    rw [hBuffer]
    obtain rfl | hne := eq_or_ne i (k % c.N)
    · rw [Function.update_self] at hFree
      rw [hFree] at hHolder
      cases hHolder
    · rw [Function.update_of_ne hne] at hFree
      exact h.free i hi hFree
  stored i hi hStored := by
    rw [hCell] at hStored ⊢
    rw [hBuffer]
    obtain rfl | hne := eq_or_ne i (k % c.N)
    · rw [Function.update_self] at hStored
      rw [hStored] at hHolder
      cases hHolder
    · rw [Function.update_of_ne hne] at hStored ⊢
      exact (h.stored i hi hStored).mono hLog

theorem Mem.claimPush (h : Mem c r q) {v : α} (hCell : r.cell (r.tail % c.N) = ⟨r.tail, .free⟩) :
    Mem c (r.claimPush c.N t v) { q with tail := c.next q.tail } := by
  have hTail : c.next q.tail = c.enc (r.tail + 1) := by rw [h.tail, c.next_enc]
  exact h.claim (t := t) rfl (by rw [hCell]; rfl) rfl (List.prefix_append _ _) h.head hTail rfl

theorem Mem.claimPop (h : Mem c r q) (hCell : r.cell (r.head % c.N) = ⟨r.head, .stored⟩) :
    Mem c (r.claimPop c.N t) { q with head := c.next q.head } := by
  have hHead : c.next q.head = c.enc (r.head + 1) := by rw [h.head, c.next_enc]
  exact h.claim (t := t) rfl (by rw [hCell]; rfl) rfl List.prefix_rfl hHead h.tail rfl

theorem next_enc_sub_oneLap (c : Config) (k : ℕ) :
    c.next (c.enc (k + c.N)) - c.oneLap = c.enc (k + 1) := by
  rw [c.next_sub_oneLap, c.enc_add_N, BitVec.add_sub_cancel, c.next_enc]

theorem Mem.claimForce (h : Mem c r q) {v : α}
    (hCell : r.cell (r.head % c.N) = ⟨r.head, .stored⟩) :
    Mem c (r.claimForce c.N t v) { q with head := c.enc (r.head + 1) } :=
  h.claim (t := t) rfl (by rw [hCell]; rfl) rfl (List.prefix_append _ _) rfl h.tail rfl

theorem Mem.storeTail (h : Mem c r q) :
    Mem c r.storeTail { q with tail := c.enc (r.tail + 1) } where
  head := h.head
  tail := rfl
  stamp := h.stamp
  free := h.free
  stored i hi hStored := (h.stored i hi hStored).mono List.prefix_rfl

theorem Mem.setValue (h : Mem c r q) {i : ℕ} {x : MaybeUninit α}
    (hHolder : (r.cell i).hold.holder = some t) : Mem c r (q.setValue i x) where
  head := h.head
  tail := h.tail
  stamp j hj := by
    rw [Queue.setValue_stamp]
    exact h.stamp j hj
  free j hj hFree := by
    have hne : j ≠ i := by
      rintro rfl
      rw [hFree] at hHolder
      cases hHolder
    rw [Queue.setValue_value_of_ne q x hne]
    exact h.free j hj hFree
  stored j hj hStored := by
    have hne : j ≠ i := by
      rintro rfl
      rw [hStored] at hHolder
      cases hHolder
    rw [Queue.setValue_value_of_ne q x hne]
    exact h.stored j hj hStored

theorem Mem.settle (h : Mem c r q) {k : ℕ} {x : Cell ι}
    (hFree : x.hold = .free → (q.buffer (k % c.N)).value = none)
    (hStored : x.hold = .stored → Carried r x.pos (q.buffer (k % c.N)).value) :
    Mem c (r.settle c.N k x) (q.stampStore (k % c.N) (x.stamp c)) where
  head := h.head
  tail := h.tail
  stamp i hi := by
    obtain rfl | hne := eq_or_ne i (k % c.N)
    · rw [Ring.settle_cell_self, Queue.stampStore_stamp_self]
    · rw [Ring.settle_cell_of_ne r x hne, Queue.stampStore_stamp_of_ne q _ hne]
      exact h.stamp i hi
  free i hi hi' := by
    rw [Queue.stampStore_value]
    obtain rfl | hne := eq_or_ne i (k % c.N)
    · rw [Ring.settle_cell_self] at hi'
      exact hFree hi'
    · rw [Ring.settle_cell_of_ne r x hne] at hi'
      exact h.free i hi hi'
  stored i hi hi' := by
    rw [Queue.stampStore_value]
    obtain rfl | hne := eq_or_ne i (k % c.N)
    · rw [Ring.settle_cell_self] at hi' ⊢
      exact hStored hi'
    · rw [Ring.settle_cell_of_ne r x hne] at hi' ⊢
      exact h.stored i hi hi'

end Memory

end NureQueue
