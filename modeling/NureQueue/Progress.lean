import NureQueue.Stale

/-! # When a call that runs alone returns

All other threads are suspended. A call that owns its slot returns whatever they hold. A
call that owns none comes to the beginning of a pass after a few accesses, with the index
word that is current; the slot of that word decides the rest.
-/

namespace NureQueue

universe u v

variable {c : Config} {ι : Type v} {α : Type u}

def Op.slot (q : Queue c α) : Op α → Option ℕ
  | .push _ | .forcePush _ => some (c.index q.tail)
  | .pop => some (c.index q.head)
  | .isEmpty | .isFull | .len => none

namespace Ring

variable {r : Ring ι α} {N : ℕ}

theorem Ok.at_tail (h : r.Ok N) (hN : 0 < N) (hHolder : (r.cell (r.tail % N)).hold.holder = none) :
    r.cell (r.tail % N) = ⟨r.tail, .free⟩ ∨
      r.tail = r.head + N ∧ r.cell (r.head % N) = ⟨r.head, .stored⟩ := by
  have hHead := h.head_le
  have hTail := h.tail_le
  have hFits := h.fits _ (Nat.mod_lt r.tail hN)
  cases hHold : (r.cell (r.tail % N)).hold with
  | free =>
    rw [Fits, hHold] at hFits
    exact .inl (h.free_of_version hN (by rw [Cell.version]; omega))
  | stored =>
    rw [Fits, hHold] at hFits
    have hFull : r.tail = r.head + N := by
      by_contra hRoom
      have hPos := h.pos_eq hN (k := r.tail) (by omega) (by omega)
      omega
    have hSlot : r.tail % N = r.head % N := by rw [hFull, Nat.add_mod_right]
    rw [hSlot] at hHold hFits
    refine .inr ⟨hFull, h.stored_of_version hN ?_⟩
    rw [Cell.version, hHold, Hold.bit]
    omega
  | pushing | popping | forcing =>
    rw [hHold] at hHolder
    cases hHolder

theorem Ok.at_head (h : r.Ok N) (hN : 0 < N) (hHolder : (r.cell (r.head % N)).hold.holder = none) :
    r.cell (r.head % N) = ⟨r.head, .stored⟩ ∨
      r.head = r.tail ∧ r.cell (r.head % N) = ⟨r.head, .free⟩ := by
  have hHead := h.head_le
  have hTail := h.tail_le
  have hFits := h.fits _ (Nat.mod_lt r.head hN)
  cases hHold : (r.cell (r.head % N)).hold with
  | free =>
    rw [Fits, hHold] at hFits
    have hPos := h.pos_eq hN (k := r.head) (by omega) (by omega)
    have hEmpty : r.head = r.tail := by omega
    refine .inr ⟨hEmpty, ?_⟩
    generalize r.cell (r.head % N) = x at *
    obtain ⟨pos, hold⟩ := x
    cases hHold
    rw [← hPos]
  | stored =>
    rw [Fits, hHold] at hFits
    refine .inl (h.stored_of_version hN ?_)
    rw [Cell.version, hHold, Hold.bit]
    omega
  | pushing | popping | forcing =>
    rw [hHold] at hHolder
    cases hHolder

end Ring

section Alone

variable {m : Monitored c ι α} {r : Ring ι α} {t : ι} {o : Op α}

theorem Represents.decides_iff (h : Represents m r) {i : ℕ} (hSlot : o.slot m.queue = some i) :
    m.queue.Decides o ↔ ∀ u, (m.pc u).owns ≠ some i := by
  have hUnheld : ∀ k, (∀ u, (m.pc u).owns ≠ some (k % c.N)) ↔
      (r.cell (k % c.N)).hold.holder = none := by
    intro k
    rw [← not_exists, ← h.held_iff (mod_lt c k), not_not]
  cases o with
  | push | forcePush =>
    cases hSlot
    rw [h.mem.tail, c.index_enc, hUnheld]
    refine Iff.trans (or_congr (h.mem.pushFree_iff h.ok) (h.mem.pushFull_iff h.ok)) ?_
    constructor
    · rintro (hCell | ⟨hFull, hCell⟩)
      · rw [hCell]
        rfl
      · rw [hFull, Nat.add_mod_right, hCell]
        rfl
    · exact h.ok.at_tail c.pos
  | pop =>
    cases hSlot
    rw [h.mem.head, c.index_enc, hUnheld]
    refine Iff.trans (or_congr (h.mem.popReady_iff h.ok) (h.mem.popEmpty_iff h.ok)) ?_
    constructor
    · rintro (hCell | ⟨-, hCell⟩)
      · rw [hCell]
        rfl
      · rw [hCell]
        rfl
    · exact h.ok.at_head c.pos
  | isEmpty | isFull | len => cases hSlot

end Alone

/-- What the words in the locals must be for the call to return before it has loaded a word
anew. -/
def Pc.Concludes (q : Queue c α) : Pc c α → Prop
  | .pushStamp _ _ tail => q.tail ≠ tail ∧ q.head + c.oneLap = tail
  | .pushCas _ _ tail => q.tail = tail
  | .fullLoad _ tail | .forceCas _ tail => q.head + c.oneLap = tail
  | .popStamp head => q.head ≠ head ∧ q.tail = head
  | .popCas head => q.head = head
  | .popTail head => q.tail = head
  | .emptyTail _ | .fullHead _ | .lenHead _ | .lenCheck .. => True
  | _ => False

theorem Closure.enter_concludes (f : Closure) (value : α) (word : c.Index) (q : Queue c α) :
    (f.enter value word).Concludes q ↔ q.head + c.oneLap = word := by
  cases f <;> exact Iff.rfl

namespace Alone

variable {q q' : Queue c α} {p p' : Pc c α} {x : Access} {n a : ℕ} {value : α} {word : c.Index}

theorem run_succ (hStep : p.step q false = some (x, q', p')) :
    run (n + 1) [] ⟨q, p, a, 0⟩ = run n [] ⟨q', p', a + p.begins, 0⟩ := by
  simp only [run, step, List.headD_nil, hStep, Access.failures_false, List.tail_nil]

theorem pushLoad_fresh (f : Closure) :
    run 1 [] ⟨q, .pushLoad f value, a, 0⟩ = ⟨q, (f.op value).fresh q, a, 0⟩ := by
  cases f <;> rfl

theorem pushCas_lost (f : Closure) (hOld : q.tail ≠ word) :
    run 1 [] ⟨q, .pushCas f value word, a, 0⟩ = ⟨q, (f.op value).fresh q, a, 0⟩ := by
  cases f <;> simp [run, step, Pc.step, hOld, Pc.begins, Closure.op, Op.fresh]

theorem pushCas_won (f : Closure) (hWord : q.tail = word) :
    ∃ q' r, run 3 [] ⟨q, .pushCas f value word, a, 0⟩ = ⟨q', .done r, a, 0⟩ := by
  have hStep : (Pc.pushCas f value word).step q false =
      some (.casTail true, { q with tail := c.next word }, .pushWrite f value word) :=
    if_pos ⟨hWord, rfl⟩
  exact ⟨_, f.ok, (run_succ hStep).trans rfl⟩

theorem enter_lost (f : Closure) (hOld : q.head + c.oneLap ≠ word) :
    run 2 [] ⟨q, f.enter value word, a, 0⟩ = ⟨q, (f.op value).fresh q, a, 0⟩ := by
  cases f with
  | push => simp [run, step, Closure.enter, Pc.step, hOld, Pc.begins, Closure.op, Op.fresh]
  | forcePush =>
    have hHead : q.head ≠ word - c.oneLap := by
      intro hWord
      rw [hWord, BitVec.sub_add_cancel] at hOld
      exact hOld rfl
    simp [run, step, Closure.enter, Pc.step, hHead, Pc.begins, Closure.op, Op.fresh]

theorem enter_won (f : Closure) (hWord : q.head + c.oneLap = word) :
    ∃ n ≤ 4, ∃ q' r, run n [] ⟨q, f.enter value word, a, 0⟩ = ⟨q', .done r, a, 0⟩ := by
  cases f with
  | push =>
    refine ⟨1, by decide, q, .pushErr value, ?_⟩
    simp [run, step, Closure.enter, Pc.step, hWord, Pc.begins]
  | forcePush =>
    have hHead : q.head = word - c.oneLap := by rw [← hWord, BitVec.add_sub_cancel]
    have hStep : (Closure.forcePush.enter value word).step q false =
        some (.casHead true, { q with head := c.next word - c.oneLap }, .forceStore value word) :=
      if_pos ⟨hHead, rfl⟩
    exact ⟨4, le_rfl, _, .forcePush (some (q.buffer (c.index word)).value),
      (run_succ hStep).trans rfl⟩

theorem popCas_lost (hOld : q.head ≠ word) :
    run 1 [] ⟨q, .popCas word, a, 0⟩ = ⟨q, Op.pop.fresh q, a, 0⟩ := by
  simp [run, step, Pc.step, hOld, Pc.begins, Op.fresh]

theorem popCas_won (hWord : q.head = word) :
    ∃ q' r, run 3 [] ⟨q, .popCas word, a, 0⟩ = ⟨q', .done r, a, 0⟩ := by
  have hStep : (Pc.popCas word).step q false =
      some (.casHead true, { q with head := c.next word }, .popRead word) := if_pos ⟨hWord, rfl⟩
  exact ⟨_, .pop (some (q.buffer (c.index word)).value), (run_succ hStep).trans rfl⟩

theorem popTail_lost (hOld : q.tail ≠ word) :
    run 2 [] ⟨q, .popTail word, a, 0⟩ = ⟨q, Op.pop.fresh q, a, 0⟩ := by
  simp [run, step, Pc.step, hOld, Pc.begins, Op.fresh]

theorem popTail_won (hWord : q.tail = word) :
    run 1 [] ⟨q, .popTail word, a, 0⟩ = ⟨q, .done (.pop none), a, 0⟩ := by
  simp [run, step, Pc.step, hWord, Pc.begins]

theorem lenCheck_same (head : c.Index) (hSame : q.tail = word) :
    run 1 [] ⟨q, .lenCheck word head, a, 0⟩ = ⟨q, .done (.len (c.lenOf head word)), a, 0⟩ := by
  simp [run, step, Pc.step, hSame, Pc.begins]

theorem lenCheck_moved (head : c.Index) (hMoved : q.tail ≠ word) :
    run 1 [] ⟨q, .lenCheck word head, a, 0⟩ = ⟨q, Op.len.fresh q, a, 0⟩ := by
  simp [run, step, Pc.step, hMoved, Pc.begins, Op.fresh]

/-- The call soon stands at the beginning of a pass with the current word, or it soon returns
by the words that it holds, however old these are. -/
def Settles (o : Op α) (x : Alone c α) : Prop :=
  (∃ n ≤ 4, ∃ d ≤ 1, run n [] x = ⟨x.queue, o.fresh x.queue, x.passes + d, 0⟩) ∨
    x.pc.Concludes x.queue ∧
      ∃ n ≤ 5, ∃ d ≤ 1, ∃ q r, run n [] x = ⟨q, .done r, x.passes + d, 0⟩

section Settles

variable {o : Op α}

theorem Settles.fresh {d : ℕ} (hn : n ≤ 4) (hd : d ≤ 1)
    (hRun : run n [] ⟨q, p, a, 0⟩ = ⟨q, o.fresh q, a + d, 0⟩) : Settles o ⟨q, p, a, 0⟩ :=
  .inl ⟨n, hn, d, hd, hRun⟩

theorem Settles.returns {r : Ret α} {d : ℕ} (h : p.Concludes q) (hn : n ≤ 5) (hd : d ≤ 1)
    (hRun : run n [] ⟨q, p, a, 0⟩ = ⟨q', .done r, a + d, 0⟩) : Settles o ⟨q, p, a, 0⟩ :=
  .inr ⟨h, n, hn, d, hd, q', r, hRun⟩

theorem settles_pushCas (f : Closure) : Settles (f.op value) ⟨q, .pushCas f value word, a, 0⟩ := by
  obtain hWord | hOld := eq_or_ne q.tail word
  · obtain ⟨q', r, hRun⟩ := pushCas_won (a := a) f hWord
    exact .returns (d := 0) hWord (by decide) (by decide) hRun
  · exact .fresh (d := 0) (by decide) (by decide) (pushCas_lost f hOld)

theorem settles_enter (f : Closure) : Settles (f.op value) ⟨q, f.enter value word, a, 0⟩ := by
  obtain hWord | hOld := eq_or_ne (q.head + c.oneLap) word
  · obtain ⟨n, hn, q', r, hRun⟩ := enter_won (a := a) f hWord
    exact .returns (d := 0) ((f.enter_concludes value word q).mpr hWord) (by omega) (by decide) hRun
  · exact .fresh (d := 0) (by decide) (by decide) (enter_lost f hOld)

theorem settles_pushStamp (f : Closure) :
    Settles (f.op value) ⟨q, .pushStamp f value word, a, 0⟩ := by
  have hStep : (Pc.pushStamp f value word).step q false = some (.loadStamp (c.index word), q,
      if word = (q.buffer (c.index word)).stamp then .pushCas f value word
      else if (q.buffer (c.index word)).stamp + c.oneLap = word + 1 then f.enter value word
      else .pushLoad f value) := rfl
  obtain rfl | hOld := eq_or_ne q.tail word
  · refine .fresh (n := 0) (d := 0) (by decide) (by decide) ?_
    cases f <;> rfl
  split_ifs at hStep
  · exact .fresh (by decide) le_rfl ((run_succ hStep).trans (pushCas_lost f hOld))
  · obtain hWord | hHead := eq_or_ne (q.head + c.oneLap) word
    · obtain ⟨n, hn, q', r, hRun⟩ := enter_won (a := a + 1) f hWord
      exact .returns ⟨hOld, hWord⟩ (by omega) le_rfl ((run_succ hStep).trans hRun)
    · exact .fresh (by decide) le_rfl ((run_succ hStep).trans (enter_lost f hHead))
  · exact .fresh (by decide) le_rfl ((run_succ hStep).trans (pushLoad_fresh f))

theorem settles_popCas : Settles .pop ⟨q, .popCas word, a, 0⟩ := by
  obtain hWord | hOld := eq_or_ne q.head word
  · obtain ⟨q', r, hRun⟩ := popCas_won (a := a) hWord
    exact .returns (d := 0) hWord (by decide) (by decide) hRun
  · exact .fresh (d := 0) (by decide) (by decide) (popCas_lost hOld)

theorem settles_popTail : Settles .pop ⟨q, .popTail word, a, 0⟩ := by
  obtain hWord | hOld := eq_or_ne q.tail word
  · exact .returns (d := 0) hWord (by decide) (by decide) (popTail_won hWord)
  · exact .fresh (d := 0) (by decide) (by decide) (popTail_lost hOld)

theorem settles_popStamp : Settles .pop ⟨q, .popStamp word, a, 0⟩ := by
  have hStep : (Pc.popStamp word).step q false = some (.loadStamp (c.index word), q,
      if word + 1 = (q.buffer (c.index word)).stamp then .popCas word
      else if (q.buffer (c.index word)).stamp = word then .popTail word
      else .popLoad) := rfl
  obtain rfl | hOld := eq_or_ne q.head word
  · exact .fresh (n := 0) (d := 0) (by decide) (by decide) rfl
  split_ifs at hStep
  · exact .fresh (by decide) le_rfl ((run_succ hStep).trans (popCas_lost hOld))
  · obtain hWord | hTail := eq_or_ne q.tail word
    · exact .returns ⟨hOld, hWord⟩ (by decide) le_rfl ((run_succ hStep).trans (popTail_won hWord))
    · exact .fresh (by decide) le_rfl ((run_succ hStep).trans (popTail_lost hTail))
  · exact .fresh (n := 2) (by decide) le_rfl ((run_succ hStep).trans rfl)

theorem settles_lenCheck (head : c.Index) : Settles .len ⟨q, .lenCheck word head, a, 0⟩ := by
  obtain hSame | hMoved := eq_or_ne q.tail word
  · exact .returns (d := 0) trivial (by decide) (by decide) (lenCheck_same head hSame)
  · exact .fresh (d := 0) (by decide) (by decide) (lenCheck_moved head hMoved)

theorem settles_lenHead : Settles .len ⟨q, .lenHead word, a, 0⟩ := by
  have hStep : (Pc.lenHead word : Pc c α).step q false =
      some (.loadHead, q, .lenCheck word q.head) := rfl
  obtain hSame | hMoved := eq_or_ne q.tail word
  · exact .returns (d := 0) trivial (by decide) (by decide)
      ((run_succ hStep).trans (lenCheck_same q.head hSame))
  · exact .fresh (d := 0) (by decide) (by decide)
      ((run_succ hStep).trans (lenCheck_moved q.head hMoved))

/-- Whatever the memory and the words that it holds, a call that owns no slot takes at most
four accesses before it begins a pass with the current word. -/
theorem settles (hPending : p.pending = some o) : Settles o ⟨q, p, a, 0⟩ := by
  cases p with
  | pushLoad f =>
    cases hPending
    exact .fresh (d := 0) (by decide) (by decide) (pushLoad_fresh f)
  | pushStamp f =>
    cases hPending
    exact settles_pushStamp f
  | pushCas f =>
    cases hPending
    exact settles_pushCas f
  | fullLoad =>
    cases hPending
    exact settles_enter .push
  | forceCas =>
    cases hPending
    exact settles_enter .forcePush
  | popLoad =>
    cases hPending
    exact .fresh (n := 1) (d := 0) (by decide) (by decide) rfl
  | popStamp =>
    cases hPending
    exact settles_popStamp
  | popCas =>
    cases hPending
    exact settles_popCas
  | popTail =>
    cases hPending
    exact settles_popTail
  | emptyHead | fullTail | lenTail =>
    cases hPending
    exact .fresh (n := 0) (d := 0) (by decide) (by decide) rfl
  | emptyTail | fullHead =>
    cases hPending
    exact .returns (n := 1) (d := 0) trivial (by decide) (by decide) rfl
  | lenHead =>
    cases hPending
    exact settles_lenHead
  | lenCheck tail head =>
    cases hPending
    exact settles_lenCheck head
  | _ => cases hPending

end Settles

end Alone

section Solo

variable {m : Monitored c ι α} {r : Ring ι α} {t : ι} {o : Op α}

theorem Pc.pending_of_not_owns {p : Pc c α} (hIdle : p ≠ .idle) (hDone : ∀ x, p ≠ .done x)
    (hOwns : p.owns = none) : ∃ o, p.pending = some o := by
  cases p with
  | idle => exact absurd rfl hIdle
  | done x => exact absurd rfl (hDone x)
  | pushWrite | pushPublish | forceStore | forceReplace | forcePublish | popRead | popPublish =>
    cases hOwns
  | _ => exact ⟨_, rfl⟩

theorem Represents.full_of_word (h : Represents m r) {k : ℕ} (hk : k ≤ r.tail)
    (hSeen : r.head + c.N = k) (hVersion : 2 * k + 1 ≤ (r.cell (k % c.N)).version + 2 * c.N) :
    m.queue.PushFull := by
  have hTail := h.ok.tail_le
  have hFull : r.tail = r.head + c.N := by omega
  rw [← hSeen, Nat.add_mod_right] at hVersion
  have hStored := h.ok.stored_of_version c.pos (by omega)
  exact (h.mem.pushFull_iff h.ok).mpr ⟨hFull, hStored⟩

/-- A call that returns by a word that is not used too late has found the memory decided. -/
theorem Represents.decides_of_concludes (h : Represents m r) (hTimely : m.Timely t)
    (hPending : (m.pc t).pending = some o) (hConcludes : (m.pc t).Concludes m.queue) :
    m.queue.Decides o := by
  have hLocal := h.locals t
  cases hPc : m.pc t with
  | pushStamp f value tail =>
    have hRecent := h.timely_tail hTimely (by rw [hPc]; rfl)
    rw [hPc] at hLocal hConcludes
    obtain ⟨rfl, hk⟩ := hLocal
    obtain ⟨hOld, hFull⟩ := hConcludes
    rw [Ne, (h.tail_word hk hRecent).1] at hOld
    have hSeen := (h.tail_word hk hRecent).2.mp hFull
    have hTail := h.ok.tail_le
    omega
  | pushCas f value tail =>
    have hRecent := h.timely_tail hTimely (by rw [hPc]; rfl)
    rw [hPc] at hLocal hConcludes hPending
    cases hPending
    obtain ⟨rfl, hk, hVersion⟩ := hLocal
    rw [← (h.tail_word hk hRecent).1.mp hConcludes] at hVersion
    have hFree := (h.mem.pushFree_iff h.ok).mpr (h.ok.free_of_version c.pos hVersion)
    exact (f.decides_iff _ value).mpr (.inl hFree)
  | fullLoad | forceCas =>
    have hRecent := h.timely_tail hTimely (by rw [hPc]; rfl)
    rw [hPc] at hLocal hConcludes hPending
    cases hPending
    obtain ⟨rfl, hk, hVersion⟩ := hLocal
    exact .inr (h.full_of_word hk ((h.tail_word hk hRecent).2.mp hConcludes) hVersion)
  | popStamp head =>
    have hRecent := h.timely_head hTimely (by rw [hPc]; rfl)
    rw [hPc] at hLocal hConcludes
    obtain ⟨rfl, hk⟩ := hLocal
    obtain ⟨hOld, hEmpty⟩ := hConcludes
    rw [Ne, (h.head_word hk hRecent).1] at hOld
    have hSeen := (h.head_word hk hRecent).2.mp hEmpty
    have hHead := h.ok.head_le
    omega
  | popCas head =>
    have hRecent := h.timely_head hTimely (by rw [hPc]; rfl)
    rw [hPc] at hLocal hConcludes hPending
    cases hPending
    obtain ⟨rfl, hk, hVersion⟩ := hLocal
    rw [← (h.head_word hk hRecent).1.mp hConcludes] at hVersion
    exact .inl ((h.mem.popReady_iff h.ok).mpr (h.ok.stored_of_version c.pos hVersion))
  | popTail head =>
    have hRecent := h.timely_head hTimely (by rw [hPc]; rfl)
    rw [hPc] at hLocal hConcludes hPending
    cases hPending
    obtain ⟨rfl, hk, hVersion⟩ := hLocal
    have hSeen := (h.head_word hk hRecent).2.mp hConcludes
    have hHead := h.ok.head_le
    have hEmpty : r.head = r.tail := by omega
    rw [← hSeen] at hVersion
    have hFree := h.ok.free_of_version c.pos hVersion
    rw [← hEmpty] at hFree
    exact .inr ((h.mem.popEmpty_iff h.ok).mpr ⟨hEmpty, hFree⟩)
  | emptyTail | fullHead | lenHead | lenCheck =>
    rw [hPc] at hPending
    cases hPending
    trivial
  | _ =>
    rw [hPc] at hConcludes
    cases hConcludes

/-- What is to be shown of a call that returns: it does so within nine accesses and two passes. -/
def Alone.Returns (x : Alone c α) : Prop :=
  ∃ n ≤ 9, ∃ d ≤ 2, ∃ q r, run n [] x = ⟨q, .done r, x.passes + d, 0⟩

def Alone.SpinsForEver (x : Alone c α) : Prop :=
  ∀ n r, (run n [] x).pc ≠ .done r

theorem Alone.Settles.returns_of_decides {x : Alone c α} (h : Settles o x)
    (hDecides : x.queue.Decides o) : x.Returns := by
  obtain ⟨n, hn, d, hd, hFresh⟩ | ⟨-, n, hn, d, hd, q, r, hRun⟩ := h
  · obtain ⟨k, hk, q, r, hReturns⟩ := fresh_returns hDecides
    refine ⟨n + k, by omega, d + 1, by omega, q, r, ?_⟩
    rw [run_add, hFresh, List.drop_nil]
    exact hReturns
  · exact ⟨n, by omega, d, by omega, q, r, hRun⟩

theorem Alone.Settles.spins {x : Alone c α} (h : Settles o x)
    (hStuck : ¬ x.pc.Concludes x.queue) (hBusy : ¬ x.queue.Decides o) : x.SpinsForEver := by
  intro k r hDone
  obtain ⟨n, -, d, -, hFresh⟩ | ⟨hConcludes, -⟩ := h
  · have hLater : run (k + n) [] x = run k [] x := by
      rw [run_add]
      generalize run k [] x = y at hDone
      obtain ⟨q, p, a, b⟩ := y
      cases hDone
      exact run_done n _ q r a b
    rw [← hLater, Nat.add_comm, run_add, hFresh] at hDone
    exact fresh_spins hBusy k _ r hDone
  · exact hStuck hConcludes

theorem Alone.Returns.not_spins {x : Alone c α} (h : x.Returns) : ¬ x.SpinsForEver := by
  obtain ⟨n, -, d, -, q, r, hRun⟩ := h
  intro hSpins
  apply hSpins n r
  rw [hRun]

theorem Represents.returns_of_unowned (h : Represents m r) (hPending : (m.pc t).pending = some o)
    (hUnowned : ∀ i, o.slot m.queue = some i → ∀ u, (m.pc u).owns ≠ some i) :
    (m.alone t).Returns := by
  apply (Alone.settles hPending).returns_of_decides
  change m.queue.Decides o
  cases hSlot : o.slot m.queue with
  | none =>
    cases o with
    | push | forcePush | pop => cases hSlot
    | isEmpty | isFull | len => trivial
  | some i => exact (h.decides_iff hSlot).mpr (hUnowned i hSlot)

theorem Represents.spins_of_owned (h : Represents m r) (hTimely : m.Timely t)
    (hPending : (m.pc t).pending = some o) {i : ℕ} (hSlot : o.slot m.queue = some i) {u : ι}
    (hOwns : (m.pc u).owns = some i) : (m.alone t).SpinsForEver := by
  have hBusy : ¬ m.queue.Decides o := by
    intro hDecides
    exact (h.decides_iff hSlot).mp hDecides u hOwns
  exact (Alone.settles hPending).spins
    (fun hConcludes => hBusy (h.decides_of_concludes hTimely hPending hConcludes)) hBusy

theorem Alone.returns_of_owns {q : Queue c α} {p : Pc c α} {i : ℕ} (hOwns : p.owns = some i) :
    (⟨q, p, 0, 0⟩ : Alone c α).Returns := by
  cases p with
  | pushWrite => exact ⟨2, by decide, 0, by decide, _, _, rfl⟩
  | pushPublish => exact ⟨1, by decide, 0, by decide, _, _, rfl⟩
  | forceStore => exact ⟨3, by decide, 0, by decide, _, _, rfl⟩
  | forceReplace => exact ⟨2, by decide, 0, by decide, _, _, rfl⟩
  | forcePublish => exact ⟨1, by decide, 0, by decide, _, _, rfl⟩
  | popRead => exact ⟨2, by decide, 0, by decide, _, _, rfl⟩
  | popPublish => exact ⟨1, by decide, 0, by decide, _, _, rfl⟩
  | _ => cases hOwns

end Solo

section Blocking

variable [DecidableEq ι] [DecidableEq α] {m : Monitored c ι α} {t : ι}

/-- With all other threads suspended, a call that does not own a slot returns, after a bounded
number of accesses and passes, if and only if no call owns the slot at tail (at head, for a
pop), and otherwise spins for ever. -/
theorem returns_iff_slot_unowned (hReach : m.Reachable) (hTimely : m.Timely t)
    (hIdle : m.pc t ≠ .idle) (hDone : ∀ x, m.pc t ≠ .done x) (hOwns : (m.pc t).owns = none) :
    ∃ o, (m.pc t).pending = some o ∧ ∀ i, o.slot m.queue = some i →
      ((m.alone t).Returns ↔ ∀ u, (m.pc u).owns ≠ some i) ∧
      ((m.alone t).SpinsForEver ↔ ∃ u, (m.pc u).owns = some i) := by
  obtain ⟨r, h⟩ := hReach.represents
  obtain ⟨o, hPending⟩ := Pc.pending_of_not_owns hIdle hDone hOwns
  refine ⟨o, hPending, fun i hSlot => ?_⟩
  have hReturns : (∀ u, (m.pc u).owns ≠ some i) → (m.alone t).Returns := by
    intro hUnowned
    apply h.returns_of_unowned hPending
    intro j hj
    cases hSlot.symm.trans hj
    exact hUnowned
  constructor
  · refine ⟨fun hRet u hu => ?_, hReturns⟩
    exact hRet.not_spins (h.spins_of_owned hTimely hPending hSlot hu)
  · refine ⟨fun hSpins => ?_, fun ⟨u, hu⟩ => h.spins_of_owned hTimely hPending hSlot hu⟩
    by_contra hNone
    exact (hReturns (not_exists.mp hNone)).not_spins hSpins

/-- Thread 1 pops with a head word from before a `force_push` that is not finished yet, and so
spins. -/
theorem returns_iff_slot_unowned_replacing :
    let m := (Runs.exec Monitored.timelyStep (.new .one (Fin 2) ℕ) replacing).get (by decide)
    (m.pc 0).owns = some 0 ∧ (m.alone 1).SpinsForEver ∧
    ∃ o, (m.pc 1).pending = some o ∧ ∀ i, o.slot m.queue = some i →
      ((m.alone 1).Returns ↔ ∀ u, (m.pc u).owns ≠ some i) ∧
      ((m.alone 1).SpinsForEver ↔ ∃ u, (m.pc u).owns = some i) := by
  intro m
  have hMain := returns_iff_slot_unowned (m := m) (t := 1) ⟨replacing, (Option.some_get _).symm⟩
    (by decide) (by decide) nofun rfl
  obtain ⟨o, hPending, hIff⟩ := id hMain
  cases hPending
  have hSlot : (Op.pop : Op ℕ).slot m.queue = some 0 := by decide
  exact ⟨rfl, (hIff 0 hSlot).2.mpr ⟨0, rfl⟩, hMain⟩

/-- A call in flight that runs alone returns, however old the words are that it holds, unless
it still needs a slot that another call owns. In that case, if the words are not too old, it
never returns. -/
theorem returns_unless_slot_owned (hReach : m.Reachable) (hIdle : m.pc t ≠ .idle) :
    ((∀ o i, (m.pc t).pending = some o → o.slot m.queue = some i →
      ∀ u, (m.pc u).owns ≠ some i) → ∃ n x, (Alone.run n [] (m.alone t)).pc = .done x) ∧
    (m.Timely t → ∀ o i u, (m.pc t).pending = some o → o.slot m.queue = some i →
      (m.pc u).owns = some i → ∀ n x, (Alone.run n [] (m.alone t)).pc ≠ .done x) := by
  obtain ⟨r, h⟩ := hReach.represents
  have hFinite : (m.alone t).Returns → ∃ n x, (Alone.run n [] (m.alone t)).pc = .done x := by
    rintro ⟨n, -, d, -, q, x, hRun⟩
    exact ⟨n, x, by rw [hRun]⟩
  constructor
  · intro hUnowned
    cases hOwns : (m.pc t).owns with
    | some i => exact hFinite (Alone.returns_of_owns hOwns)
    | none =>
      by_cases hDone : ∃ x, m.pc t = .done x
      · obtain ⟨x, hPc⟩ := hDone
        exact ⟨0, x, hPc⟩
      · obtain ⟨o, hPending⟩ := Pc.pending_of_not_owns hIdle (not_exists.mp hDone) hOwns
        exact hFinite (h.returns_of_unowned hPending (hUnowned o · hPending))
  · intro hTimely o i u hPending hSlot hOwns
    exact h.spins_of_owned hTimely hPending hSlot hOwns

/-- Thread 1 returns before a `force_push` takes its slot, and never while that is unfinished. -/
theorem returns_unless_slot_owned_replacing :
    let m₀ := (Runs.exec Monitored.timelyStep (.new .one (Fin 2) ℕ) (replacing.take 10)).get
      (by decide)
    let m := (Runs.exec Monitored.timelyStep (.new .one (Fin 2) ℕ) replacing).get (by decide)
    (m₀.pc 1).pending = some .pop ∧ (∃ n x, (Alone.run n [] (m₀.alone 1)).pc = .done x) ∧
      (m.pc 1).pending = some .pop ∧ (m.pc 0).owns = some 0 ∧
      ∀ n x, (Alone.run n [] (m.alone 1)).pc ≠ .done x := by
  intro m₀ m
  have hFree : ∀ u, (m₀.pc u).owns = none := by decide
  refine ⟨rfl, (returns_unless_slot_owned (t := 1) ⟨_, (Option.some_get _).symm⟩ (by decide)).1 ?_,
    rfl, rfl, (returns_unless_slot_owned (t := 1) ⟨_, (Option.some_get _).symm⟩ (by decide)).2
      (by decide) .pop 0 0 rfl rfl rfl⟩
  intro o i _ _ u hOwns
  cases (hFree u).symm.trans hOwns

/-- Thread 0 has won its exchange and not written yet; thread 1 is about to pop. -/
def writing : List (Label (Fin 2) ℕ) :=
  [.call 0 (.push 7), .step 0 false, .step 0 false, .step 0 false, .call 1 .pop]

/-- A call that runs alone does not always return: not where another call is suspended in its
slot, and, once a word has been used too late, not even where no call owns a slot. -/
theorem spins_beside_suspended_push :
    (∃ m, (Monitored.new .one (Fin 2) ℕ).TimelyRun writing m ∧ m.Timely 1 ∧
      m.pc 1 = .popLoad ∧ (m.alone 1).SpinsForEver) ∧
    ∃ labels s, Runs.exec System.step (.new .one (Fin 2) ℕ) labels = some s ∧
      s.pc 1 = .pushLoad .push 8 ∧ (∀ u, (s.pc u).owns = none) ∧ (s.alone 1).SpinsForEver := by
  constructor
  · let m := (Runs.exec Monitored.timelyStep (.new .one (Fin 2) ℕ) writing).get (by decide)
    have hRun : (Monitored.new .one (Fin 2) ℕ).TimelyRun writing m := (Option.some_get _).symm
    obtain ⟨r, h⟩ := hRun.represents ⟨_, Represents.new ..⟩
    have hTimely : m.Timely 1 := by decide
    exact ⟨m, hRun, hTimely, rfl, h.spins_of_owned (u := 0) hTimely rfl rfl rfl⟩
  · obtain ⟨labels, q, hLate, -, hTail, hHead⟩ := System.exec_late
    refine ⟨labels ++ ([.step 0 false, .step 0 false, .step 0 false, .ret 0 .pushOk] ++
      [.call 1 (.push 8)]), ⟨q.overrun, Function.update (fun _ => .idle) 1 (.pushLoad .push 8)⟩,
      ?_, rfl, Fin.forall_fin_two.mpr ⟨rfl, rfl⟩, ?_⟩
    · refine Runs.exec_append_eq_some.mpr ⟨_, hLate, Runs.exec_append_eq_some.mpr ⟨_,
        System.exec_overrun hTail, rfl⟩⟩
    · exact (Alone.settles (o := .push 8) rfl).spins id (Queue.overrun_busy hHead .push 8)

end Blocking

end NureQueue
