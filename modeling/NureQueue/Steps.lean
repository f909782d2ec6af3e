import NureQueue.Represents

/-! # Every timely step is a move of the ring

The move relation says once what a step of a thread can do to the ring and to the
thread's own point; the step theorem shows that from a state that represents a ring
each timely access makes one of these moves and again represents a ring.
-/

namespace NureQueue

universe u v

variable {c : Config} {ι : Type v} {α : Type u}

namespace Pc

/-- The operation of a call that has not taken effect yet. -/
def pending : Pc c α → Option (Op α)
  | .pushLoad f value | .pushStamp f value _ | .pushCas f value _ => some (f.op value)
  | .fullLoad value _ => some (.push value)
  | .forceCas value _ => some (.forcePush value)
  | .popLoad | .popStamp _ | .popCas _ | .popTail _ => some .pop
  | .emptyHead | .emptyTail _ => some .isEmpty
  | .fullTail | .fullHead _ => some .isFull
  | .lenTail | .lenHead _ | .lenCheck .. => some .len
  | _ => none

theorem owns_of_pending {p : Pc c α} {o : Op α} (h : p.pending = some o) : p.owns = none := by
  cases p <;> first | rfl | cases h

end Pc

/-- A move of thread t: the ring and the thread's point before and after. -/
inductive Move (c : Config) (t : ι) : Ring ι α → Pc c α → Ring ι α → Pc c α → Prop
  | retry {r p p'} (o : Op α) (hp : p.pending = some o) (hp' : p'.pending = some o) :
    Move c t r p r p'
  | claimPush {r} (f value tail) (hCell : r.cell (r.tail % c.N) = ⟨r.tail, .free⟩) :
    Move c t r (.pushCas f value tail) (r.claimPush c.N t value) (.pushWrite f value tail)
  | write {r} (f value tail) :
    Move c t r (.pushWrite f value tail) r (.pushPublish f tail)
  | publish {r} (f tail k) (hCell : r.cell (k % c.N) = ⟨k, .pushing t⟩) :
    Move c t r (.pushPublish f tail) (r.settle c.N k ⟨k, .stored⟩) (.done f.ok)
  | full {r} (value tail) (hFull : r.tail = r.head + c.N) (hHalf : r.half = none) :
    Move c t r (.fullLoad value tail) r (.done (.pushErr value))
  | claimForce {r} (value tail) (hFull : r.tail = r.head + c.N) (hHalf : r.half = none)
      (hCell : r.cell (r.head % c.N) = ⟨r.head, .stored⟩) :
    Move c t r (.forceCas value tail) (r.claimForce c.N t value) (.forceStore value tail)
  | storeTail {r} (value tail) (hHalf : r.half = some t) :
    Move c t r (.forceStore value tail) r.storeTail (.forceReplace value tail)
  | replace {r} (value tail old p) (hCell : r.cell (p % c.N) = ⟨p, .forcing t⟩)
      (hOld : Carried r p old) :
    Move c t r (.forceReplace value tail) r (.forcePublish tail old)
  | publishForce {r} (tail old p) (hCell : r.cell (p % c.N) = ⟨p, .forcing t⟩)
      (hHalf : r.half ≠ some t) :
    Move c t r (.forcePublish tail old) (r.settle c.N p ⟨p + c.N, .stored⟩)
      (.done (.forcePush (some old)))
  | claimPop {r} (head) (hCell : r.cell (r.head % c.N) = ⟨r.head, .stored⟩) :
    Move c t r (.popCas head) (r.claimPop c.N t) (.popRead head)
  | read {r} (head msg k) (hCell : r.cell (k % c.N) = ⟨k, .popping t⟩) (hMsg : Carried r k msg) :
    Move c t r (.popRead head) r (.popPublish head msg)
  | release {r} (head msg k) (hCell : r.cell (k % c.N) = ⟨k, .popping t⟩) :
    Move c t r (.popPublish head msg) (r.settle c.N k ⟨k + c.N, .free⟩) (.done (.pop (some msg)))
  | empty {r} (head) (hEmpty : r.head = r.tail) (hHalf : r.half = none) :
    Move c t r (.popTail head) r (.done (.pop none))
  | isEmpty {r} (head b) : Move c t r (.emptyTail head) r (.done (.isEmpty b))
  | isFull {r} (tail b) : Move c t r (.fullHead tail) r (.done (.isFull b))
  | len {r} (tail head n) : Move c t r (.lenCheck tail head) r (.done (.len n))

/-- A step of another thread does not touch what the locals of thread u rely on. -/
theorem Local.frame {r r' : Ring ι α} {q q' : Queue c α} {t u : ι} {k : ℕ} {p : Pc c α}
    (hLocal : Local c r q u k p) (hExt : Ring.Extends c.N t r r') (hu : u ≠ t)
    (hValue : ∀ i, (r.cell i).hold.holder = some u → (q'.buffer i).value = (q.buffer i).value) :
    Local c r' q' u k p := by
  have hTail := hExt.tail
  have hHead := hExt.head
  have hVersion := hExt.version _ (mod_lt c k)
  have hLog := hExt.log
  have hHeld : ∀ i x, r.cell i = x → x.hold.holder = some u →
      r'.cell i = x ∧ (q'.buffer i).value = (q.buffer i).value := by
    rintro i x rfl hx
    exact ⟨hExt.held i u hu (.inl hx), hValue i hx⟩
  cases p with
  | idle | done | pushLoad | popLoad | emptyHead | fullTail | lenTail => trivial
  | pushStamp | fullHead | lenHead | lenCheck => exact ⟨hLocal.1, hLocal.2.trans hTail⟩
  | popStamp | emptyTail => exact ⟨hLocal.1, hLocal.2.trans hHead⟩
  | pushCas => exact ⟨hLocal.1, hLocal.2.1.trans hTail, hLocal.2.2.trans hVersion⟩
  | popCas | popTail => exact ⟨hLocal.1, hLocal.2.1.trans hHead, hLocal.2.2.trans hVersion⟩
  | fullLoad | forceCas =>
    exact ⟨hLocal.1, hLocal.2.1.trans hTail, hLocal.2.2.trans (Nat.add_le_add_right hVersion _)⟩
  | pushWrite =>
    obtain ⟨hWord, hCell, hNone, hValue⟩ := hLocal
    obtain ⟨hCell', hSame⟩ := hHeld _ _ hCell rfl
    exact ⟨hWord, hCell', hSame.trans hNone, Runs.getElem?_mono hLog hValue⟩
  | pushPublish | popRead =>
    obtain ⟨hWord, hCell, hCarried⟩ := hLocal
    obtain ⟨hCell', hSame⟩ := hHeld _ _ hCell rfl
    exact ⟨hWord, hCell', hSame ▸ hCarried.mono hLog⟩
  | popPublish =>
    obtain ⟨hWord, hCell, hNone, hMsg⟩ := hLocal
    obtain ⟨hCell', hSame⟩ := hHeld _ _ hCell rfl
    exact ⟨hWord, hCell', hSame.trans hNone, hMsg.mono hLog⟩
  | forceStore =>
    obtain ⟨p, hp, hWord, hCell, hHalf, hCarried, hValue⟩ := hLocal
    obtain ⟨hCell', hSame⟩ := hHeld _ _ hCell rfl
    exact ⟨p, hp, hWord, hCell', (hExt.half u hu).mpr hHalf, hSame ▸ hCarried.mono hLog,
      Runs.getElem?_mono hLog hValue⟩
  | forceReplace =>
    obtain ⟨p, hp, hWord, hCell, hHalf, hCarried, hValue⟩ := hLocal
    obtain ⟨hCell', hSame⟩ := hHeld _ _ hCell rfl
    exact ⟨p, hp, hWord, hCell', fun h => hHalf ((hExt.half u hu).mp h),
      hSame ▸ hCarried.mono hLog, Runs.getElem?_mono hLog hValue⟩
  | forcePublish =>
    obtain ⟨p, hp, hWord, hCell, hHalf, hOld, hCarried⟩ := hLocal
    obtain ⟨hCell', hSame⟩ := hHeld _ _ hCell rfl
    exact ⟨p, hp, hWord, hCell', fun h => hHalf ((hExt.half u hu).mp h), hOld.mono hLog,
      hSame ▸ hCarried.mono hLog⟩

section Access

variable {m : Monitored c ι α} {r r' : Ring ι α} {t : ι}
variable {a : Access} {q : Queue c α} {p : Pc c α}

theorem Represents.holder_ne (h : Represents m r) (hOwns : (m.pc t).owns = none) :
    ∀ i < c.N, (r.cell i).hold.holder ≠ some t := by
  intro i hi hHolder
  cases hOwns.symm.trans (h.holder i hi t hHolder)

theorem Represents.half_ne (h : Represents m r) (hOwns : (m.pc t).owns = none) :
    r.half ≠ some t := by
  intro hHalf
  obtain ⟨value, tail, hPc⟩ := h.half t hHalf
  rw [hPc] at hOwns
  cases hOwns

/-- Between the two moves of a `force_push`, tail is where the call has loaded it. -/
theorem Represents.half_local (h : Represents m r) {value : α} {tail : c.Index}
    (hPc : m.pc t = .forceStore value tail) :
    tail = c.enc (m.seen t) ∧ r.tail = m.seen t ∧ r.half = some t := by
  have hLocal := h.locals t
  rw [hPc] at hLocal
  obtain ⟨p, hp, hWord, hCell, hHalf, -⟩ := hLocal
  have hFits := h.ok.fits _ (mod_lt c p)
  rw [hCell] at hFits
  exact ⟨hWord, (hFits.2.2.1 hHalf).trans hp.symm, hHalf⟩

theorem Represents.timely_tail (h : Represents m r) (hTimely : m.Timely t)
    (hUses : (m.pc t).uses = some .tail) : r.tail < m.seen t + c.K / 2 :=
  h.tail ▸ hTimely .tail hUses

theorem Represents.timely_head (h : Represents m r) (hTimely : m.Timely t)
    (hUses : (m.pc t).uses = some .head) : r.head < m.seen t + c.K / 2 :=
  h.head ▸ hTimely .head hUses

/-- An old tail word is not taken for the current one, nor for that of a full queue. -/
theorem Represents.tail_word (h : Represents m r) {k : ℕ} (hk : k ≤ r.tail)
    (hTimely : r.tail < k + c.K / 2) :
    (m.queue.tail = c.enc k ↔ r.tail = k) ∧
    (m.queue.head + c.oneLap = c.enc k ↔ r.head + c.N = k) := by
  have hN := c.pos
  have hK := c.four_mul_N_le_K
  have hHead := h.ok.head_le
  have hTail := h.ok.tail_le
  rw [h.mem.tail, h.mem.head, ← c.enc_add_N]
  exact ⟨c.enc_inj hk (by omega), c.enc_inj (by omega) (by omega)⟩

theorem Represents.head_word (h : Represents m r) {k : ℕ} (hk : k ≤ r.head)
    (hTimely : r.head < k + c.K / 2) :
    (m.queue.head = c.enc k ↔ r.head = k) ∧ (m.queue.tail = c.enc k ↔ r.tail = k) := by
  have hN := c.pos
  have hK := c.four_mul_N_le_K
  have hHead := h.ok.head_le
  have hTail := h.ok.tail_le
  rw [h.mem.tail, h.mem.head]
  exact ⟨c.enc_inj hk (by omega), c.enc_inj (by omega) (by omega)⟩

theorem Mem.stamp_enc (h : Mem c r q) (k : ℕ) :
    (q.buffer (c.index (c.enc k))).stamp = (r.cell (k % c.N)).stamp c := by
  rw [c.index_enc]
  exact h.stamp _ (mod_lt c k)

theorem Represents.loaded_tail (h : Represents m r) {k : ℕ} (hk : m.moves .tail = k) :
    m.queue.tail = c.enc k ∧ k ≤ r.tail := by
  rw [← hk, h.tail]
  exact ⟨h.mem.tail, le_rfl⟩

theorem Represents.loaded_head (h : Represents m r) {k : ℕ} (hk : m.moves .head = k) :
    m.queue.head = c.enc k ∧ k ≤ r.head := by
  rw [← hk, h.head]
  exact ⟨h.mem.head, le_rfl⟩

variable [DecidableEq ι]

/-- An access represents the next ring if it does so for memory and for its own thread. -/
theorem Represents.access (h : Represents m r) (hOk : r'.Ok c.N) (hMem : Mem c r' q)
    (hExt : Ring.Extends c.N t r r')
    (hHead : m.moves .head + a.moves .head = r'.head)
    (hTail : m.moves .tail + a.moves .tail = r'.tail)
    (hValue : ∀ i u, u ≠ t → (r.cell i).hold.holder = some u →
      (q.buffer i).value = (m.queue.buffer i).value)
    (hLocal : Local c r' q t (m.note t p) p)
    (hHolder : ∀ i < c.N, (r'.cell i).hold.holder = some t → p.owns = some i)
    (hHalf : r'.half = some t → ∃ value tail, p = .forceStore value tail) :
    Represents (m.access t a q p) r' where
  ok := hOk
  head := hHead
  tail := hTail
  mem := hMem
  locals := by
    intro u
    obtain rfl | hu := eq_or_ne u t
    · simpa [Monitored.access] using hLocal
    · have hOther := (h.locals u).frame hExt hu (fun i hi => hValue i u hu hi)
      simpa [Monitored.access, hu] using hOther
  holder := by
    intro i hi u hHeld
    obtain rfl | hu := eq_or_ne u t
    · simpa [Monitored.access] using hHolder i hi hHeld
    · have hSame := hExt.held i u hu (.inr hHeld)
      rw [hSame] at hHeld
      simpa [Monitored.access, hu] using h.holder i hi u hHeld
  half := by
    intro u hHeld
    obtain rfl | hu := eq_or_ne u t
    · simpa [Monitored.access] using hHalf hHeld
    · simpa [Monitored.access, hu] using h.half u ((hExt.half u hu).mp hHeld)

/-- A load, a failed exchange or a verdict, made before the thread owns a slot. -/
theorem Represents.quiet (h : Represents m r) (hOwns : (m.pc t).owns = none)
    (hMoves : ∀ x, a.moves x = 0) (hLocal : Local c r m.queue t (m.note t p) p) :
    Represents (m.access t a m.queue p) r := by
  refine h.access h.ok h.mem (.refl t r) ?_ ?_ (fun _ _ _ _ => rfl) hLocal ?_ ?_
  · rw [hMoves, h.head, Nat.add_zero]
  · rw [hMoves, h.tail, Nat.add_zero]
  · intro i hi hHolder
    exact absurd hHolder (h.holder_ne hOwns i hi)
  · intro hHalf
    exact absurd hHalf (h.half_ne hOwns)

theorem Represents.write (h : Represents m r) {i : ℕ} {value : MaybeUninit α}
    (hHolder : (r.cell i).hold.holder = some t) (hMoves : ∀ x, a.moves x = 0)
    (hOwns : p.owns = (m.pc t).owns) (hHalf : r.half ≠ some t)
    (hLocal : Local c r (m.queue.setValue i value) t (m.note t p) p) :
    Represents (m.access t a (m.queue.setValue i value) p) r := by
  refine h.access h.ok (h.mem.setValue hHolder) (.refl t r) ?_ ?_ ?_ hLocal ?_ ?_
  · rw [hMoves, h.head, Nat.add_zero]
  · rw [hMoves, h.tail, Nat.add_zero]
  · intro j u hu hOther
    have hne : j ≠ i := by
      rintro rfl
      exact hu (Option.some.inj (hOther.symm.trans hHolder))
    exact Queue.setValue_value_of_ne _ _ hne
  · intro j hj hOwn
    rw [hOwns]
    exact h.holder j hj t hOwn
  · intro hSome
    exact absurd hSome hHalf

theorem Represents.claim (h : Represents m r) {k : ℕ} {x : Cell ι}
    (hOwns : (m.pc t).owns = none) (hOk : r'.Ok c.N) (hMem : Mem c r' q)
    (hExt : Ring.Extends c.N t r r') (hCell : r'.cell = Function.update r.cell (k % c.N) x)
    (hHead : r.head + a.moves .head = r'.head) (hTail : r.tail + a.moves .tail = r'.tail)
    (hBuffer : q.buffer = m.queue.buffer) (hLocal : Local c r' q t (m.note t p) p)
    (hOwn : p.owns = some (k % c.N))
    (hHalf : r'.half = some t → ∃ value tail, p = .forceStore value tail) :
    Represents (m.access t a q p) r' := by
  refine h.access hOk hMem hExt (h.head ▸ hHead) (h.tail ▸ hTail) ?_ hLocal ?_ hHalf
  · intro i u _ _
    rw [hBuffer]
  · intro i hi hHolder
    rw [hCell] at hHolder
    obtain rfl | hne := eq_or_ne i (k % c.N)
    · exact hOwn
    · rw [Function.update_of_ne hne] at hHolder
      exact absurd hHolder (h.holder_ne hOwns i hi)

theorem Represents.settle (h : Represents m r) {k : ℕ} {x : Cell ι} {ret : Ret α}
    (hHolder : (r.cell (k % c.N)).hold.holder = some t) (hRest : x.hold.holder = none)
    (hVersion : (r.cell (k % c.N)).version ≤ x.version) (hOk : (r.settle c.N k x).Ok c.N)
    (hMem : Mem c (r.settle c.N k x) q) (hMoves : ∀ x, a.moves x = 0)
    (hValue : ∀ i, (q.buffer i).value = (m.queue.buffer i).value) (hHalf : r.half ≠ some t) :
    Represents (m.access t a q (.done ret)) (r.settle c.N k x) := by
  refine h.access hOk hMem (Ring.settle_extends hHolder hRest hVersion) ?_ ?_
    (fun i _ _ _ => hValue i) trivial ?_ ?_
  · rw [hMoves, h.head, Nat.add_zero]
    rfl
  · rw [hMoves, h.tail, Nat.add_zero]
    rfl
  · intro i hi hOwn
    obtain rfl | hne := eq_or_ne i (k % c.N)
    · rw [Ring.settle_cell_self, hRest] at hOwn
      cases hOwn
    · rw [Ring.settle_cell_of_ne r x hne] at hOwn
      have hFirst := h.holder i hi t hOwn
      have hSecond := h.holder _ (mod_lt c k) t hHolder
      exact absurd (Option.some.inj (hFirst.symm.trans hSecond)) hne
  · intro hSome
    exact absurd hSome hHalf

def Advances (m : Monitored c ι α) (r : Ring ι α) (t : ι) (a : Access) (q : Queue c α)
    (p : Pc c α) : Prop :=
  ∃ r', Represents (m.access t a q p) r' ∧ Move c t r (m.pc t) r' p

theorem Represents.retry (h : Represents m r) (o : Op α) (hp : (m.pc t).pending = some o)
    (hp' : p.pending = some o) (hMoves : ∀ x, a.moves x = 0)
    (hLocal : Local c r m.queue t (m.note t p) p) : Advances m r t a m.queue p :=
  ⟨r, h.quiet (Pc.owns_of_pending hp) hMoves hLocal, .retry o hp hp'⟩

theorem Represents.pushStamp (h : Represents m r) {f : Closure} {value : α} {tail : c.Index}
    (hPc : m.pc t = .pushStamp f value tail) (hTimely : m.Timely t) :
    Advances m r t (.loadStamp (c.index tail)) m.queue
      (if tail = (m.queue.buffer (c.index tail)).stamp then .pushCas f value tail
      else if (m.queue.buffer (c.index tail)).stamp + c.oneLap = tail + 1 then f.enter value tail
      else .pushLoad f value) := by
  have hLocal := h.locals t
  rw [hPc] at hLocal
  obtain ⟨rfl, hk⟩ := hLocal
  have hRecent := Recent.of_tail h.ok hk (h.timely_tail hTimely (by rw [hPc]; rfl))
  rw [h.mem.stamp_enc]
  split
  · rename_i hStamp
    have hVersion := hRecent.version_of_stamp h.ok hStamp.symm
    exact h.retry (f.op value) (by rw [hPc]; rfl) rfl (fun _ => rfl) ⟨rfl, hk, hVersion.ge⟩
  · split
    · rename_i hStamp
      have hVersion := hRecent.version_of_stamp_lap h.ok hStamp
      cases f with
      | push | forcePush =>
        exact h.retry _ (by rw [hPc]; rfl) rfl (fun _ => rfl) ⟨rfl, hk, hVersion.ge⟩
    · exact h.retry (f.op value) (by rw [hPc]; rfl) rfl (fun _ => rfl) trivial

theorem Represents.pushCas_won (h : Represents m r) {f : Closure} {value : α} {tail : c.Index}
    (hPc : m.pc t = .pushCas f value tail) (hTimely : m.Timely t) (hWon : m.queue.tail = tail) :
    Advances m r t (.casTail true) { m.queue with tail := c.next tail }
      (.pushWrite f value tail) := by
  have hN := c.pos
  have hLocal := h.locals t
  have hRecent := h.timely_tail hTimely (by rw [hPc]; rfl)
  have hTail := h.mem.tail
  rw [hPc] at hLocal
  subst hWon
  obtain ⟨hWord, hk, hVersion⟩ := hLocal
  have hSeen : r.tail = m.seen t := (h.tail_word hk hRecent).1.mp hWord
  rw [← hSeen] at hVersion
  have hCell := h.ok.free_of_version hN hVersion
  have hHalf := h.ok.half_none_of_free hCell
  have hLength := h.ok.log_length
  refine ⟨r.claimPush c.N t value, ?_, hPc ▸ .claimPush f value _ hCell⟩
  refine h.claim (k := r.tail) (by rw [hPc]; rfl) (h.ok.claimPush hN hCell)
    (h.mem.claimPush hCell) (Ring.claimPush_extends hCell) rfl rfl rfl rfl ?_ ?_ ?_
  · change Local c _ _ t (m.seen t) _
    rw [← hSeen]
    refine ⟨hTail, Ring.claimPush_cell_self r t value, ?_, ?_⟩
    · exact h.mem.free _ (mod_lt c _) (by rw [hCell])
    · simp [Ring.claimPush, hLength, hHalf]
  · rw [Pc.owns, hTail, c.index_enc]
  · intro hSome
    cases hHalf.symm.trans hSome

theorem Represents.pushWrite (h : Represents m r) {f : Closure} {value : α} {tail : c.Index}
    (hPc : m.pc t = .pushWrite f value tail) :
    Advances m r t (.writeValue (c.index tail)) (m.queue.setValue (c.index tail) (some value))
      (.pushPublish f tail) := by
  have hLocal := h.locals t
  rw [hPc] at hLocal
  obtain ⟨rfl, hCell, -, hValue⟩ := hLocal
  rw [c.index_enc]
  refine ⟨r, h.write (by rw [hCell]; rfl) (fun _ => rfl) (by rw [hPc]; rfl) ?_ ?_,
    hPc ▸ .write f value _⟩
  · intro hHalf
    obtain ⟨_, _, hForce⟩ := h.half t hHalf
    cases hPc.symm.trans hForce
  · exact ⟨rfl, hCell, value, hValue, Queue.setValue_value_self _ _ _⟩

theorem Represents.pushPublish (h : Represents m r) {f : Closure} {tail : c.Index}
    (hPc : m.pc t = .pushPublish f tail) :
    Advances m r t (.storeStamp (c.index tail))
      (m.queue.stampStore (c.index tail) (tail + 1)) (.done f.ok) := by
  have hLocal := h.locals t
  rw [hPc] at hLocal
  obtain ⟨rfl, hCell, hCarried⟩ := hLocal
  rw [c.index_enc]
  have hVersion : (r.cell (m.seen t % c.N)).version ≤
      Cell.version (ι := ι) ⟨m.seen t, .stored⟩ := by
    rw [hCell]
    exact Nat.le_succ _
  refine ⟨_, h.settle (x := ⟨m.seen t, .stored⟩) (by rw [hCell]; rfl) rfl hVersion
    (h.ok.publish c.pos hCell) (h.mem.settle (by simp) fun _ => hCarried) (fun _ => rfl)
    (fun i => Queue.stampStore_value _ _ _ _) ?_, hPc ▸ .publish f _ _ hCell⟩
  intro hHalf
  obtain ⟨_, _, hForce⟩ := h.half t hHalf
  cases hPc.symm.trans hForce

theorem Represents.fullLoad (h : Represents m r) {value : α} {tail : c.Index}
    (hPc : m.pc t = .fullLoad value tail) (hTimely : m.Timely t) :
    Advances m r t .loadHead m.queue
      (if m.queue.head + c.oneLap = tail then .done (.pushErr value)
      else .pushLoad .push value) := by
  have hN := c.pos
  have hTailLe := h.ok.tail_le
  have hLocal := h.locals t
  have hRecent := h.timely_tail hTimely (by rw [hPc]; rfl)
  rw [hPc] at hLocal
  obtain ⟨hWord, hk, -⟩ := hLocal
  split
  · rename_i hVerdict
    have hFull : r.head + c.N = m.seen t :=
      (h.tail_word hk hRecent).2.mp (hVerdict.trans hWord)
    have hHalf : r.half = none := by
      cases hSome : r.half with
      | none => rfl
      | some u =>
        have hLt := h.ok.half_lt hN hSome
        omega
    exact ⟨r, h.quiet (by rw [hPc]; rfl) (fun _ => rfl) trivial,
      hPc ▸ .full value tail (by omega) hHalf⟩
  · exact h.retry (.push value) (by rw [hPc]; rfl) rfl (fun _ => rfl) trivial

theorem Represents.forceCas_won (h : Represents m r) {value : α} {tail : c.Index}
    (hPc : m.pc t = .forceCas value tail) (hTimely : m.Timely t)
    (hWon : m.queue.head = tail - c.oneLap) :
    Advances m r t (.casHead true) { m.queue with head := c.next tail - c.oneLap }
      (.forceStore value tail) := by
  have hN := c.pos
  have hTailLe := h.ok.tail_le
  have hLocal := h.locals t
  have hRecent := h.timely_tail hTimely (by rw [hPc]; rfl)
  rw [hPc] at hLocal
  obtain ⟨hWord, hk, hVersion⟩ := hLocal
  have hFull : r.head + c.N = m.seen t := by
    apply (h.tail_word hk hRecent).2.mp
    rw [hWon, BitVec.sub_add_cancel, hWord]
  have hTail : r.tail = r.head + c.N := by omega
  rw [← hFull, Nat.add_mod_right] at hVersion
  have hCell := h.ok.stored_of_version hN (by omega)
  have hHalf := h.ok.half_none_of_full hTail hCell
  have hLength := h.ok.log_length
  have hOwns : (m.pc t).owns = none := by rw [hPc]; rfl
  have hNew : c.next tail - c.oneLap = c.enc (r.head + 1) := by
    rw [hWord, ← hFull, next_enc_sub_oneLap]
  rw [hNew]
  refine ⟨r.claimForce c.N t value, ?_, hPc ▸ .claimForce value tail hTail hHalf hCell⟩
  refine h.claim (k := r.head) hOwns (h.ok.claimForce hN hTail hCell (h.holder_ne hOwns))
    (h.mem.claimForce hCell) (Ring.claimForce_extends hCell hHalf) rfl rfl rfl rfl ?_ ?_ ?_
  · change Local c _ _ t (m.seen t) _
    rw [← hFull]
    refine ⟨r.head, rfl, hFull ▸ hWord, Ring.claimForce_cell_self r t value, rfl, ?_, ?_⟩
    · have hStored := h.mem.stored _ (mod_lt c r.head) (by rw [hCell])
      rw [hCell] at hStored
      exact hStored.mono (List.prefix_append _ _)
    · simp [Ring.claimForce, hLength, hHalf, hTail]
  · rw [Pc.owns, hWord, ← hFull, c.index_enc, Nat.add_mod_right]
  · intro _
    exact ⟨value, tail, rfl⟩

theorem Represents.forceStore (h : Represents m r) {value : α} {tail : c.Index}
    (hPc : m.pc t = .forceStore value tail) :
    Advances m r t .storeTail { m.queue with tail := c.next tail } (.forceReplace value tail) := by
  have hLocal := h.locals t
  rw [hPc] at hLocal
  obtain ⟨p, hp, hWord, hCell, hHalf, hCarried, hValue⟩ := hLocal
  obtain ⟨-, hTail, -⟩ := h.half_local hPc
  have hNew : c.next tail = c.enc (r.tail + 1) := by rw [hWord, c.next_enc, hTail]
  rw [hNew]
  refine ⟨r.storeTail, ?_, hPc ▸ .storeTail value tail hHalf⟩
  refine h.access (h.ok.storeTail c.pos hHalf) h.mem.storeTail (Ring.storeTail_extends hHalf)
    ?_ ?_ (fun _ _ _ _ => rfl) ?_ ?_ nofun
  · exact h.head
  · exact congrArg (· + 1) h.tail
  · exact ⟨p, hp, hWord, hCell, nofun, hCarried, hValue⟩
  · intro i hi hHolder
    have hOwns := h.holder i hi t hHolder
    rw [hPc] at hOwns
    exact hOwns

theorem Represents.forceReplace (h : Represents m r) {value : α} {tail : c.Index}
    (hPc : m.pc t = .forceReplace value tail) :
    Advances m r t (.replaceValue (c.index tail))
      (m.queue.setValue (c.index tail) (some value))
      (.forcePublish tail (m.queue.buffer (c.index tail)).value) := by
  have hLocal := h.locals t
  rw [hPc] at hLocal
  obtain ⟨p, hp, rfl, hCell, hHalf, hCarried, hValue⟩ := hLocal
  have hIndex : c.index (c.enc (m.seen t)) = p % c.N := by
    rw [c.index_enc, hp, Nat.add_mod_right]
  have hOwns : (m.pc t).owns = some (c.index (c.enc (m.seen t))) := by rw [hPc]; rfl
  rw [hIndex]
  refine ⟨r, h.write (by rw [hCell]; rfl) (fun _ => rfl) hOwns.symm hHalf ?_,
    hPc ▸ .replace value _ _ p hCell hCarried⟩
  exact ⟨p, hp, rfl, hCell, hHalf, hCarried, value, hValue, Queue.setValue_value_self _ _ _⟩

theorem Represents.forcePublish (h : Represents m r) {tail : c.Index} {old : MaybeUninit α}
    (hPc : m.pc t = .forcePublish tail old) :
    Advances m r t (.storeStamp (c.index tail))
      (m.queue.stampStore (c.index tail) (tail + 1)) (.done (.forcePush (some old))) := by
  have hLocal := h.locals t
  rw [hPc] at hLocal
  obtain ⟨p, hp, rfl, hCell, hHalf, -, hCarried⟩ := hLocal
  rw [hp] at hCarried ⊢
  rw [c.index_enc, Nat.add_mod_right]
  have hVersion : (r.cell (p % c.N)).version ≤ Cell.version (ι := ι) ⟨p + c.N, .stored⟩ := by
    rw [hCell]
    simp only [Cell.version, Hold.bit]
    omega
  exact ⟨_, h.settle (x := ⟨p + c.N, .stored⟩) (by rw [hCell]; rfl) rfl hVersion
    (h.ok.publishForce c.pos hCell hHalf) (h.mem.settle (by simp) fun _ => hCarried) (fun _ => rfl)
    (fun i => Queue.stampStore_value _ _ _ _) hHalf, hPc ▸ .publishForce _ old p hCell hHalf⟩

theorem Represents.popStamp (h : Represents m r) {head : c.Index}
    (hPc : m.pc t = .popStamp head) (hTimely : m.Timely t) :
    Advances m r t (.loadStamp (c.index head)) m.queue
      (if head + 1 = (m.queue.buffer (c.index head)).stamp then .popCas head
      else if (m.queue.buffer (c.index head)).stamp = head then .popTail head
      else .popLoad) := by
  have hLocal := h.locals t
  rw [hPc] at hLocal
  obtain ⟨rfl, hk⟩ := hLocal
  have hRecent := Recent.of_head hk (h.timely_head hTimely (by rw [hPc]; rfl))
  rw [h.mem.stamp_enc]
  split
  · rename_i hStamp
    have hVersion := hRecent.version_of_stamp_succ h.ok hStamp.symm
    exact h.retry .pop (by rw [hPc]; rfl) rfl (fun _ => rfl) ⟨rfl, hk, hVersion.ge⟩
  · split
    · rename_i hStamp
      have hVersion := hRecent.version_of_stamp h.ok hStamp
      exact h.retry .pop (by rw [hPc]; rfl) rfl (fun _ => rfl) ⟨rfl, hk, hVersion.ge⟩
    · exact h.retry .pop (by rw [hPc]; rfl) rfl (fun _ => rfl) trivial

theorem Represents.popCas_won (h : Represents m r) {head : c.Index}
    (hPc : m.pc t = .popCas head) (hTimely : m.Timely t) (hWon : m.queue.head = head) :
    Advances m r t (.casHead true) { m.queue with head := c.next head } (.popRead head) := by
  have hN := c.pos
  have hLocal := h.locals t
  have hRecent := h.timely_head hTimely (by rw [hPc]; rfl)
  have hHead := h.mem.head
  rw [hPc] at hLocal
  subst hWon
  obtain ⟨hWord, hk, hVersion⟩ := hLocal
  have hSeen : r.head = m.seen t := (h.head_word hk hRecent).1.mp hWord
  rw [← hSeen] at hVersion
  have hCell := h.ok.stored_of_version hN hVersion
  have hOwns : (m.pc t).owns = none := by rw [hPc]; rfl
  refine ⟨r.claimPop c.N t, ?_, hPc ▸ .claimPop _ hCell⟩
  refine h.claim (k := r.head) hOwns (h.ok.claimPop hN hCell) (h.mem.claimPop hCell)
    (Ring.claimPop_extends hCell) rfl rfl rfl rfl ?_ ?_ ?_
  · change Local c _ _ t (m.seen t) _
    rw [← hSeen]
    have hStored := h.mem.stored _ (mod_lt c r.head) (by rw [hCell])
    rw [hCell] at hStored
    exact ⟨hHead, Ring.claimPop_cell_self r t, hStored⟩
  · rw [Pc.owns, hHead, c.index_enc]
  · intro hSome
    exact absurd hSome (h.half_ne hOwns)

theorem Represents.popRead (h : Represents m r) {head : c.Index}
    (hPc : m.pc t = .popRead head) :
    Advances m r t (.readValue (c.index head)) (m.queue.setValue (c.index head) none)
      (.popPublish head (m.queue.buffer (c.index head)).value) := by
  have hLocal := h.locals t
  rw [hPc] at hLocal
  obtain ⟨rfl, hCell, hCarried⟩ := hLocal
  rw [c.index_enc]
  refine ⟨r, h.write (by rw [hCell]; rfl) (fun _ => rfl) (by rw [hPc]; rfl) ?_ ?_,
    hPc ▸ .read _ _ _ hCell hCarried⟩
  · intro hHalf
    obtain ⟨_, _, hForce⟩ := h.half t hHalf
    cases hPc.symm.trans hForce
  · exact ⟨rfl, hCell, Queue.setValue_value_self _ _ _, hCarried⟩

theorem Represents.popPublish (h : Represents m r) {head : c.Index} {msg : MaybeUninit α}
    (hPc : m.pc t = .popPublish head msg) :
    Advances m r t (.storeStamp (c.index head))
      (m.queue.stampStore (c.index head) (head + c.oneLap)) (.done (.pop (some msg))) := by
  have hLocal := h.locals t
  rw [hPc] at hLocal
  obtain ⟨rfl, hCell, hNone, -⟩ := hLocal
  rw [c.index_enc, ← c.enc_add_N]
  have hN := c.pos
  have hVersion : (r.cell (m.seen t % c.N)).version ≤
      Cell.version (ι := ι) ⟨m.seen t + c.N, .free⟩ := by
    rw [hCell]
    simp only [Cell.version, Hold.bit]
    omega
  refine ⟨_, h.settle (x := ⟨m.seen t + c.N, .free⟩) (by rw [hCell]; rfl) rfl hVersion
    (h.ok.release hN hCell) (h.mem.settle (fun _ => hNone) (by simp)) (fun _ => rfl)
    (fun i => Queue.stampStore_value _ _ _ _) ?_, hPc ▸ .release _ msg _ hCell⟩
  intro hHalf
  obtain ⟨_, _, hForce⟩ := h.half t hHalf
  cases hPc.symm.trans hForce

theorem Represents.popTail (h : Represents m r) {head : c.Index}
    (hPc : m.pc t = .popTail head) (hTimely : m.Timely t) :
    Advances m r t .loadTail m.queue
      (if m.queue.tail = head then .done (.pop none) else .popLoad) := by
  have hN := c.pos
  have hHeadLe := h.ok.head_le
  have hLocal := h.locals t
  have hRecent := h.timely_head hTimely (by rw [hPc]; rfl)
  rw [hPc] at hLocal
  obtain ⟨hWord, hk, hVersion⟩ := hLocal
  split
  · rename_i hVerdict
    have hEmpty : r.tail = m.seen t :=
      (h.head_word hk hRecent).2.mp (hVerdict.trans hWord)
    rw [← hEmpty] at hVersion
    have hHalf := h.ok.half_none_of_free (h.ok.free_of_version hN hVersion)
    exact ⟨r, h.quiet (by rw [hPc]; rfl) (fun _ => rfl) trivial,
      hPc ▸ .empty head (by omega) hHalf⟩
  · exact h.retry .pop (by rw [hPc]; rfl) rfl (fun _ => rfl) trivial

/-- Each timely access is a move of the ring, to a state that represents the ring after it. -/
theorem Represents.advances (h : Represents m r) (hTimely : m.Timely t) {spurious : Bool}
    (hStep : (m.pc t).step m.queue spurious = some (a, q, p)) : Advances m r t a q p := by
  have hLocal := h.locals t
  have hPending : ∀ p', m.pc t = p' → (m.pc t).pending = p'.pending := fun _ hp => by rw [hp]
  cases hPc : m.pc t with
  | idle | done => rw [hPc] at hStep; cases hStep
  | pushLoad f value =>
    rw [hPc] at hStep; cases hStep
    exact h.retry (f.op value) (hPending _ hPc) rfl (fun _ => rfl) (h.loaded_tail rfl)
  | pushStamp f value tail =>
    rw [hPc] at hStep; cases hStep
    exact h.pushStamp hPc hTimely
  | pushCas f value tail =>
    rw [hPc, Pc.step] at hStep
    split at hStep <;> cases hStep
    · rename_i hWon
      exact h.pushCas_won hPc hTimely hWon.1
    · exact h.retry (f.op value) (hPending _ hPc) rfl (fun x => by cases x <;> rfl)
        (h.loaded_tail rfl)
  | pushWrite f value tail =>
    rw [hPc] at hStep; cases hStep
    exact h.pushWrite hPc
  | pushPublish f tail =>
    rw [hPc] at hStep; cases hStep
    exact h.pushPublish hPc
  | fullLoad value tail =>
    rw [hPc] at hStep; cases hStep
    exact h.fullLoad hPc hTimely
  | forceCas value tail =>
    rw [hPc, Pc.step] at hStep
    split at hStep <;> cases hStep
    · rename_i hWon
      exact h.forceCas_won hPc hTimely hWon.1
    · exact h.retry (.forcePush value) (hPending _ hPc) rfl (fun x => by cases x <;> rfl) trivial
  | forceStore value tail =>
    rw [hPc] at hStep; cases hStep
    exact h.forceStore hPc
  | forceReplace value tail =>
    rw [hPc] at hStep; cases hStep
    exact h.forceReplace hPc
  | forcePublish tail old =>
    rw [hPc] at hStep; cases hStep
    exact h.forcePublish hPc
  | popLoad =>
    rw [hPc] at hStep; cases hStep
    exact h.retry .pop (hPending _ hPc) rfl (fun _ => rfl) (h.loaded_head rfl)
  | popStamp head =>
    rw [hPc] at hStep; cases hStep
    exact h.popStamp hPc hTimely
  | popCas head =>
    rw [hPc, Pc.step] at hStep
    split at hStep <;> cases hStep
    · rename_i hWon
      exact h.popCas_won hPc hTimely hWon.1
    · exact h.retry .pop (hPending _ hPc) rfl (fun x => by cases x <;> rfl) (h.loaded_head rfl)
  | popRead head =>
    rw [hPc] at hStep; cases hStep
    exact h.popRead hPc
  | popPublish head msg =>
    rw [hPc] at hStep; cases hStep
    exact h.popPublish hPc
  | popTail head =>
    rw [hPc] at hStep; cases hStep
    exact h.popTail hPc hTimely
  | emptyHead =>
    rw [hPc] at hStep; cases hStep
    exact h.retry .isEmpty (hPending _ hPc) rfl (fun _ => rfl) (h.loaded_head rfl)
  | emptyTail head =>
    rw [hPc] at hStep; cases hStep
    exact ⟨r, h.quiet (by rw [hPc]; rfl) (fun _ => rfl) trivial, hPc ▸ .isEmpty head _⟩
  | fullTail =>
    rw [hPc] at hStep; cases hStep
    exact h.retry .isFull (hPending _ hPc) rfl (fun _ => rfl) (h.loaded_tail rfl)
  | fullHead tail =>
    rw [hPc] at hStep; cases hStep
    exact ⟨r, h.quiet (by rw [hPc]; rfl) (fun _ => rfl) trivial, hPc ▸ .isFull tail _⟩
  | lenTail =>
    rw [hPc] at hStep; cases hStep
    exact h.retry .len (hPending _ hPc) rfl (fun _ => rfl) (h.loaded_tail rfl)
  | lenHead tail =>
    rw [hPc] at hStep hLocal; cases hStep
    exact h.retry .len (hPending _ hPc) rfl (fun _ => rfl) hLocal
  | lenCheck tail head =>
    rw [hPc, Pc.step] at hStep; cases hStep
    split
    · exact ⟨r, h.quiet (by rw [hPc]; rfl) (fun _ => rfl) trivial, hPc ▸ .len tail head _⟩
    · exact h.retry .len (hPending _ hPc) rfl (fun _ => rfl) trivial

end Access

end NureQueue
