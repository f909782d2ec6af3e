import NureQueue.Observers
import NureQueue.Stale

/-! # Runs without pop

The elements then never become fewer: a push adds one, and a `force_push` on a full queue
replaces one. But the replacement moves head first and tail later, and a thread that looks
in between sees one element less.
-/

namespace NureQueue

universe u v

variable {c : Config} {ι : Type v} {α : Type u}

def Pc.pops : Pc c α → Prop
  | .popLoad | .popStamp _ | .popCas _ | .popRead _ | .popPublish .. | .popTail _
  | .done (.pop _) => True
  | _ => False

theorem Pc.not_pops_step {p p' : Pc c α} {q q' : Queue c α} {spurious : Bool} {a : Access}
    (hStep : p.step q spurious = some (a, q', p')) (h : ¬ p.pops) : ¬ p'.pops := by
  cases p with
  | idle | done => cases hStep
  | popLoad | popStamp | popCas | popRead | popPublish | popTail => exact absurd trivial h
  | pushStamp f =>
    cases hStep
    cases f <;> split_ifs <;> exact id
  | pushPublish f =>
    cases hStep
    cases f <;> exact id
  | pushCas | forceCas =>
    rw [Pc.step] at hStep
    split at hStep <;> cases hStep <;> exact id
  | fullLoad | lenCheck =>
    cases hStep
    split_ifs <;> exact id
  | _ =>
    cases hStep
    exact id

theorem Label.popFree_call {t : ι} {op : Op α} (h : (Label.call t op).popFree) :
    ¬ (op.start : Pc c α).pops := by
  cases op with
  | pop => exact absurd h id
  | _ => exact id

structure PopFree (m : Monitored c ι α) (r : Ring ι α) : Prop where
  represents : Represents m r
  pops : ∀ t, ¬ (m.pc t).pops
  half : r.half ≠ none → r.tail + 1 = r.head + c.N

/-- A `force_push` has moved head and not yet stored tail. -/
def Monitored.HalfMoved (m : Monitored c ι α) : Prop :=
  ∃ t value tail, m.pc t = .forceStore value tail

section PopFree

variable {m m' : Monitored c ι α} {r r' : Ring ι α} {t : ι}

theorem PopFree.new (c : Config) (ι : Type v) (α : Type u) :
    PopFree (Monitored.new c ι α) (Ring.start ι α) where
  represents := Represents.new c ι α
  pops _ := id
  half hHalf := absurd rfl hHalf

theorem Represents.half_iff (h : Represents m r) : r.half ≠ none ↔ m.HalfMoved := by
  constructor
  · intro hSome
    obtain ⟨t, ht⟩ := Option.ne_none_iff_exists'.mp hSome
    exact ⟨t, h.half t ht⟩
  · rintro ⟨t, value, tail, hPc⟩
    obtain ⟨-, -, hHalf⟩ := h.half_local hPc
    rw [hHalf]
    nofun

/-- Without pop a move never makes the elements fewer, and the move of head leaves a half. -/
theorem PopFree.move (h : PopFree m r) {p' : Pc c α} (hMove : Move c t r (m.pc t) r' p')
    (hOk : r'.Ok c.N) :
    (r'.half ≠ none → r'.tail + 1 = r'.head + c.N) ∧ r.items.length ≤ r'.items.length ∧
      (r'.head = r.head ∨ r'.half ≠ none) := by
  have hPops := h.pops t
  have hBefore := h.represents.ok.items_length
  have hAfter := hOk.items_length
  have hHead := h.represents.ok.head_le
  generalize m.pc t = p at hMove hPops
  cases hMove with
  | claimPop | read | release | empty => exact absurd trivial hPops
  | claimPush f value tail hCell =>
    have hHalf := h.represents.ok.half_none_of_free hCell
    refine ⟨fun hSome => absurd hHalf hSome, ?_, .inl rfl⟩
    rw [hBefore, hAfter, hHalf]
    change r.tail - r.head + 0 ≤ r.tail + 1 - r.head + if r.half.isSome then 1 else 0
    omega
  | claimForce value tail hFull hHalf hCell =>
    refine ⟨fun _ => ?_, ?_, .inr nofun⟩
    · change r.tail + 1 = r.head + 1 + c.N
      omega
    · rw [hBefore, hAfter, hHalf]
      change r.tail - r.head + 0 ≤ r.tail - (r.head + 1) + 1
      omega
  | storeTail value tail hHalf =>
    refine ⟨fun hSome => absurd rfl hSome, ?_, .inl rfl⟩
    rw [hBefore, hAfter, hHalf]
    change r.tail - r.head + 1 ≤ r.tail + 1 - r.head + 0
    omega
  | publish | publishForce => exact ⟨h.half, le_rfl, .inl rfl⟩
  | _ => exact ⟨h.half, le_rfl, .inl rfl⟩

/-- The elements are those between head and tail, or one more, which a half-moved
`force_push` is about to write. -/
theorem PopFree.count (h : PopFree m r) : r.items.length ≤ c.N ∧
    (m.moves .tail = m.moves .head + r.items.length ∨
      m.HalfMoved ∧ r.items.length = c.N ∧ m.moves .tail + 1 = m.moves .head + c.N) := by
  have hLength := h.represents.ok.items_length
  have hHead := h.represents.ok.head_le
  have hTail := h.represents.ok.tail_le
  rw [h.represents.head, h.represents.tail]
  cases hHalf : r.half with
  | none =>
    rw [hHalf, Option.isSome_none] at hLength
    simp only [Bool.false_eq_true, if_false] at hLength
    exact ⟨by omega, .inl (by omega)⟩
  | some t =>
    have hSome : r.half ≠ none := by
      rw [hHalf]
      nofun
    have hFull := h.half hSome
    rw [hHalf, Option.isSome_some, if_pos rfl] at hLength
    exact ⟨by omega, .inr ⟨h.represents.half_iff.mp hSome, by omega, hFull⟩⟩

theorem Represents.items_length_eq (h : Represents m r) (h' : Represents m r') :
    r.items.length = r'.items.length := by
  have hHalf := h.half_iff.trans h'.half_iff.symm
  have hHead := h.head.symm.trans h'.head
  have hTail := h.tail.symm.trans h'.tail
  rw [h.ok.items_length, h'.ok.items_length, hHead, hTail]
  cases hr : r.half with
  | none =>
    rw [hr] at hHalf
    rw [not_not.mp (fun hSome => hHalf.mpr hSome rfl)]
  | some t =>
    rw [hr] at hHalf
    obtain ⟨u, hu⟩ := Option.ne_none_iff_exists'.mp (hHalf.mp nofun)
    rw [hu]
    rfl

theorem PopFree.stored (h : PopFree m r) {x : Ret α} (hMove : Move c t r (m.pc t) r' (.done x))
    (hStored : x = .pushOk ∨ ∃ old, x = .forcePush old) : 1 ≤ r.items.length := by
  have hLength := h.represents.ok.items_length
  have hSome : r.head < r.tail := by
    generalize m.pc t = p at hMove
    cases hMove with
    | retry _ _ hp' => cases hp'
    | publish _ _ k hCell =>
      have hFits := h.represents.ok.fits _ (mod_lt c k)
      rw [hCell] at hFits
      exact hFits.1.trans_lt hFits.2
    | publishForce _ _ k hCell hHalf =>
      have hFits := h.represents.ok.fits _ (mod_lt c k)
      rw [hCell] at hFits
      exact hFits.2.1.trans_lt (hFits.2.2.2 hHalf)
    | full | release | empty | isEmpty | isFull | len =>
      obtain hx | ⟨old, hx⟩ := hStored
      · cases hx
      · cases hx
  omega

variable [DecidableEq ι] [DecidableEq α]

theorem PopFree.timelyStep (h : PopFree m r) {l : Label ι α} (hFree : l.popFree)
    (hStep : m.timelyStep l = some m') : ∃ r', PopFree m' r' ∧
      r.items.length ≤ r'.items.length ∧ (r'.head = r.head ∨ m'.HalfMoved) := by
  have hUpdate : ∀ t p, ¬ p.pops → ∀ u, ¬ (Function.update m.pc t p u).pops := by
    intro t p hp
    exact (Function.forall_update_iff m.pc fun _ p => ¬ p.pops).mpr ⟨hp, fun u _ => h.pops u⟩
  obtain ⟨t, op, rfl, hIdle, rfl⟩ |
    ⟨t, spurious, a, q, p, rfl, hTimely, hAccess, rfl⟩ | ⟨t, x, rfl, hDone, rfl⟩ :=
      Monitored.timelyStep_cases hStep
  · exact ⟨r, ⟨h.represents.call hIdle op, hUpdate t _ (Label.popFree_call hFree), h.half⟩,
      le_rfl, .inl rfl⟩
  · obtain ⟨r', hNext, hMove⟩ := h.represents.advances hTimely hAccess
    obtain ⟨hHalf, hItems, hHead⟩ := h.move hMove hNext.ok
    exact ⟨r', ⟨hNext, hUpdate t p (Pc.not_pops_step hAccess (h.pops t)), hHalf⟩, hItems,
      hHead.imp_right hNext.half_iff.mp⟩
  · exact ⟨r, ⟨h.represents.ret hDone, hUpdate t _ id, h.half⟩, le_rfl, .inl rfl⟩

theorem PopFree.run (h : PopFree m r) {labels : List (Label ι α)} (hFree : ∀ l ∈ labels, l.popFree)
    (hRun : m.TimelyRun labels m') :
    ∃ r', PopFree m' r' ∧ r.items.length ≤ r'.items.length := by
  refine Runs.exec_invariant_of
    (P := fun m' => ∃ r', PopFree m' r' ∧ r.items.length ≤ r'.items.length) ?_ hRun hFree
    ⟨r, h, le_rfl⟩
  rintro n l n' ⟨s, hs, hLe⟩ hLabel hStep
  obtain ⟨s', hs', hItems, -⟩ := hs.timelyStep hLabel hStep
  exact ⟨s', hs', hLe.trans hItems⟩

theorem PopFree.items_le (h : PopFree m r) {labels : List (Label ι α)}
    (hFree : ∀ l ∈ labels, l.popFree) (hRun : m.TimelyRun labels m') (h' : PopFree m' r') :
    r.items.length ≤ r'.items.length := by
  obtain ⟨s, hs, hLe⟩ := h.run hFree hRun
  rwa [hs.represents.items_length_eq h'.represents] at hLe

section Window

variable {window : List (Label ι α)} (h : PopFree m r) (hFree : ∀ l ∈ window, l.popFree)
  (hRun : m.TimelyRun window m')

include h

omit [DecidableEq ι] [DecidableEq α] in
theorem PopFree.len_seen {k : ℕ} (hSeen : (Ret.len k : Ret α).Seen c.N m.moves m'.moves) :
    k = r.items.length ∨ m.HalfMoved ∧ r.items.length = c.N ∧ k + 1 = c.N := by
  have hDist : k + m.moves .head = m.moves .tail := hSeen
  obtain hWhole | ⟨hHalf, hAll, hShort⟩ := h.count.2
  · exact .inl (by omega)
  · exact .inr ⟨hHalf, hAll, by omega⟩

include hRun

theorem PopFree.isEmpty_seen {b : Bool} (hSome : 1 ≤ r.items.length)
    (hSeen : (Ret.isEmpty b : Ret α).Seen c.N m.moves m'.moves) :
    b = false ∨ m.HalfMoved ∧ c.N = 1 := by
  have hTail := hRun.moves_le .tail
  have hBounds := h.represents.bounds
  cases b with
  | false => exact .inl rfl
  | true =>
    have hSame : m'.moves .tail = m.moves .head := hSeen.mp rfl
    obtain hWhole | ⟨hHalf, hAll, hShort⟩ := h.count.2
    · omega
    · exact .inr ⟨hHalf, by omega⟩

include hFree

theorem PopFree.isFull_seen {b : Bool} (hAll : r.items.length = c.N)
    (hSeen : (Ret.isFull b : Ret α).Seen c.N m.moves m'.moves) :
    b = true ∨ ∃ before after n, window = before ++ after ∧ m.TimelyRun before n ∧
      n.HalfMoved := by
  cases b with
  | true => exact .inl rfl
  | false =>
    have hNe : m'.moves .head + c.N ≠ m.moves .tail := fun hFull => nomatch hSeen.mpr hFull
    refine .inr ?_
    obtain hWhole | ⟨hHalf, -⟩ := h.count.2
    · -- head has moved in the window, and the state after its first move has a half
      obtain ⟨before, l, after, n, n', rfl, hBefore, hSame, hStep, hMoved, -⟩ :=
        Runs.exec_first_change (P := fun n : Monitored c ι α => n.moves .head = m.moves .head)
          hRun rfl (by omega)
      obtain ⟨s, hs, -⟩ := h.run (fun l hl => hFree l (by simp [hl])) hBefore
      obtain ⟨s', hs', -, hHead | hHalf⟩ := hs.timelyStep (hFree l (by simp)) hStep
      · rw [hs'.represents.head, hHead, ← hs.represents.head] at hMoved
        exact absurd hSame hMoved
      · exact ⟨before ++ [l], after, n', by simp, Runs.exec_snoc_eq_some.mpr ⟨n, hBefore, hStep⟩,
          hHalf⟩
    · exact ⟨[], window, m, rfl, rfl, hHalf⟩

end Window

theorem PopFree.earlier {labels : List (Label ι α)}
    (hRun : (Monitored.new c ι α).TimelyRun labels m) (hFree : ∀ l ∈ labels, l.popFree)
    (h : PopFree m r) {x : Ret α} (hRet : .ret t x ∈ labels) (hObserves : x.observes = true) :
    ∃ (n n' : Monitored c ι α) (s s' : Ring ι α), PopFree n s ∧ PopFree n' s' ∧
      x.Seen c.N n.moves n'.moves ∧ n.moves .tail ≤ n'.moves .tail ∧ s.items.length ≤ r.items.length ∧
      s'.items.length ≤ r.items.length := by
  obtain ⟨first, rest, rfl⟩ := List.append_of_mem hRet
  obtain ⟨m₁, hFirst, hRest⟩ := Runs.exec_append_eq_some.mp hRun
  obtain ⟨m₂, hStep, -⟩ := Runs.exec_cons_eq_some.mp hRest
  obtain ⟨before, window, after, n, n', s, s', rfl, hBefore, hWindow, hSeen⟩ :=
    Monitored.TimelyRun.observed hFirst ⟨_, Represents.new c ι α⟩ (.inl rfl)
      (Monitored.done_of_ret hStep) hObserves
  have hAfter : n.TimelyRun (window ++ (.step t s' :: (after ++ .ret t x :: rest))) m := by
    apply Runs.exec_suffix _ hBefore
    simpa [Monitored.TimelyRun] using hRun
  simp only [List.forall_mem_append, List.forall_mem_cons] at hFree
  obtain ⟨⟨hFreeBefore, hFreeStep, hFreeWindow, hFreeStep', hFreeAfter⟩, hFreeRet, hFreeRest⟩ :=
    hFree
  obtain ⟨ring, hn, -⟩ := (PopFree.new c ι α).run
    (List.forall_mem_append.mpr ⟨hFreeBefore, List.forall_mem_singleton.mpr hFreeStep⟩) hBefore
  obtain ⟨ring', hn', -⟩ := hn.run hFreeWindow hWindow
  have hFreeEnd : ∀ l ∈ Label.step t s' :: (after ++ .ret t x :: rest), l.popFree := by
    simp only [List.forall_mem_append, List.forall_mem_cons]
    exact ⟨hFreeStep', hFreeAfter, hFreeRet, hFreeRest⟩
  refine ⟨n, n', ring, ring', hn, hn', hSeen, hWindow.moves_le .tail, ?_, ?_⟩
  · exact hn.items_le (List.forall_mem_append.mpr ⟨hFreeWindow, hFreeEnd⟩) hAfter h
  · exact hn'.items_le hFreeEnd (Runs.exec_suffix hAfter hWindow) h

theorem PopFree.stored_earlier {labels : List (Label ι α)}
    (hRun : (Monitored.new c ι α).TimelyRun labels m) (hFree : ∀ l ∈ labels, l.popFree)
    (h : PopFree m r) {x : Ret α} (hRet : .ret t x ∈ labels)
    (hStored : x = .pushOk ∨ ∃ old, x = .forcePush old) : 1 ≤ r.items.length := by
  obtain ⟨before, spurious, m₁, a, q, ⟨rest, rfl⟩, hBefore, hTimely, hAccess⟩ :=
    hRun.step_of_ret (fun _ => rfl) hRet
  rw [List.append_assoc] at hRun hFree
  obtain ⟨hFreeBefore, hFreeRest⟩ := List.forall_mem_append.mp hFree
  obtain ⟨s, hs, -⟩ := (PopFree.new c ι α).run hFreeBefore hBefore
  obtain ⟨s', -, hMove⟩ := hs.represents.advances hTimely hAccess
  exact (hs.stored hMove hStored).trans
    (hs.items_le hFreeRest (Runs.exec_suffix hRun hBefore) h)

theorem PopFree.len_earlier {labels : List (Label ι α)}
    (hRun : (Monitored.new c ι α).TimelyRun labels m) (hFree : ∀ l ∈ labels, l.popFree)
    (h : PopFree m r) {k : ℕ} (hRet : .ret t (.len k) ∈ labels) : k ≤ r.items.length := by
  obtain ⟨n, n', s, s', hn, -, hSeen, -, hLe, -⟩ := h.earlier hRun hFree hRet rfl
  have hDist : k + n.moves .head = n.moves .tail := hSeen
  obtain hWhole | ⟨-, hAll, hShort⟩ := hn.count.2
  · omega
  · omega

theorem PopFree.full_earlier {labels : List (Label ι α)}
    (hRun : (Monitored.new c ι α).TimelyRun labels m) (hFree : ∀ l ∈ labels, l.popFree)
    (h : PopFree m r) (hRet : .ret t (.isFull true) ∈ labels) : r.items.length = c.N := by
  obtain ⟨n, n', s, s', -, hn', hSeen, hTail, -, hLe⟩ := h.earlier hRun hFree hRet rfl
  have hFull : n'.moves .head + c.N = n.moves .tail := hSeen.mp rfl
  have hMost := h.count.1
  obtain hWhole | ⟨-, hAll, hShort⟩ := hn'.count.2
  · omega
  · omega

/-- Some `force_push` is half-moved at some moment of a part of a run. -/
def Monitored.HalfMovedIn (m₀ : Monitored c ι α) (before during : List (Label ι α)) : Prop :=
  ∃ first last m, during = first ++ last ∧ m₀.TimelyRun (before ++ first) m ∧ m.HalfMoved

theorem PopFree.later {m₀ : Monitored c ι α} {before during : List (Label ι α)}
    (h : PopFree m r) (hBefore : m₀.TimelyRun before m) (hFree : ∀ l ∈ during, l.popFree)
    (hRun : m.TimelyRun during m') {op : Op α} (hStart : m.pc t = op.start) {x : Ret α}
    (hDone : m'.pc t = .done x) (hObserves : x.observes = true) :
    (∀ k, x = .len k → r.items.length ≤ k ∧ k ≤ c.N ∨
      m₀.HalfMovedIn before during ∧ k + 1 = c.N) ∧
    (1 ≤ r.items.length → ∀ b, x = .isEmpty b → b = false ∨
      m₀.HalfMovedIn before during ∧ c.N = 1) ∧
    (r.items.length = c.N → ∀ b, x = .isFull b → b = true ∨ m₀.HalfMovedIn before during) := by
  obtain ⟨first, window, last, n, n', spurious, spurious', rfl, hFirst, hWindow, hSeen⟩ :=
    hRun.observed ⟨r, h.represents⟩ (.inr ⟨op, hStart⟩) hDone hObserves
  simp only [List.forall_mem_append, List.forall_mem_cons] at hFree
  obtain ⟨hFreeFirst, hFreeStep, hFreeWindow, -⟩ := hFree
  obtain ⟨s, hs, hLe⟩ := h.run
    (List.forall_mem_append.mpr ⟨hFreeFirst, List.forall_mem_singleton.mpr hFreeStep⟩) hFirst
  have hMost := hs.count.1
  have hMoment : ∀ window₁ window₂ n₁, window = window₁ ++ window₂ → n.TimelyRun window₁ n₁ →
      n₁.HalfMoved → m₀.HalfMovedIn before
        (first ++ .step t spurious :: (window ++ .step t spurious' :: last)) := by
    rintro window₁ window₂ n₁ rfl hPart hHalf
    refine ⟨first ++ [.step t spurious] ++ window₁, window₂ ++ .step t spurious' :: last, n₁,
      by simp, ?_, hHalf⟩
    exact Runs.exec_append_eq_some.mpr ⟨m, hBefore,
      Runs.exec_append_eq_some.mpr ⟨n, hFirst, hPart⟩⟩
  have hNow := hMoment [] window n rfl rfl
  refine ⟨?_, ?_, ?_⟩
  · rintro k rfl
    obtain rfl | ⟨hHalf, -, hShort⟩ := hs.len_seen hSeen
    · exact .inl ⟨hLe, hMost⟩
    · exact .inr ⟨hNow hHalf, hShort⟩
  · rintro hSome b rfl
    exact (hs.isEmpty_seen hWindow (hSome.trans hLe) hSeen).imp_right fun hHalf =>
      ⟨hNow hHalf.1, hHalf.2⟩
  · rintro hAll b rfl
    refine (hs.isFull_seen hFreeWindow hWindow (by omega) hSeen).imp_right ?_
    rintro ⟨window₁, window₂, n₁, hSplit, hPart, hHalf⟩
    exact hMoment window₁ window₂ n₁ hSplit hPart hHalf

/-- In a run without pop, a later `len` returns no less than an earlier one, `is_empty` returns
false once a value has been stored, and, once `is_full` has returned true, `is_full` returns true
and `len` returns N; unless a `force_push` is half-moved at some moment of the later call. Then
`len` may return N - 1, `is_full` may return false, and for N = 1 `is_empty` may return true. -/
theorem popFree_observers {labels before during after : List (Label ι α)}
    (hRun : (Monitored.new c ι α).TimelyRun labels m) (hFree : ∀ l ∈ labels, l.popFree)
    {op : Op α} {x : Ret α}
    (hLabels : labels = before ++ .call t op :: (during ++ .ret t x :: after)) :
    (∀ u j k, .ret u (.len j) ∈ before → x = .len k → j ≤ k ∨
      (Monitored.new c ι α).HalfMovedIn (before ++ [.call t op]) during ∧ j = c.N ∧ k + 1 = c.N) ∧
    ((∃ u y, .ret u y ∈ before ∧ (y = .pushOk ∨ ∃ old, y = .forcePush old)) →
      ∀ b, x = .isEmpty b → b = false ∨
        (Monitored.new c ι α).HalfMovedIn (before ++ [.call t op]) during ∧ c.N = 1) ∧
    ((∃ u, .ret u (.isFull true) ∈ before) →
      (∀ b, x = .isFull b → b = true ∨
        (Monitored.new c ι α).HalfMovedIn (before ++ [.call t op]) during) ∧
      ∀ k, x = .len k → k = c.N ∨
        (Monitored.new c ι α).HalfMovedIn (before ++ [.call t op]) during ∧ k + 1 = c.N) := by
  subst hLabels
  obtain ⟨m₁, m₂, m₃, hBefore, hCall, hStart, hDuring, hDone⟩ := hRun.call_to_ret
  simp only [List.forall_mem_append, List.forall_mem_cons] at hFree
  obtain ⟨hFreeBefore, hFreeCall, hFreeDuring, -⟩ := hFree
  obtain ⟨r₁, h₁, -⟩ := (PopFree.new c ι α).run hFreeBefore hBefore
  obtain ⟨r₂, h₂, hLe, -⟩ := h₁.timelyStep hFreeCall hCall
  have hBegin : (Monitored.new c ι α).TimelyRun (before ++ [.call t op]) m₂ :=
    Runs.exec_snoc_eq_some.mpr ⟨m₁, hBefore, hCall⟩
  have hMost := h₁.count.1
  have hMost₂ := h₂.count.1
  have hLater := h₂.later hBegin hFreeDuring hDuring hStart hDone
  refine ⟨?_, ?_, ?_⟩
  · rintro u j k hRet rfl
    have hBound := h₁.len_earlier hBefore hFreeBefore hRet
    obtain ⟨hMore, -⟩ | ⟨hHalf, hShort⟩ := (hLater rfl).1 k rfl
    · exact .inl (by omega)
    · obtain hLess | hMore := Nat.lt_or_ge k j
      · exact .inr ⟨hHalf, by omega, hShort⟩
      · exact .inl hMore
  · rintro ⟨u, y, hRet, hStored⟩ b rfl
    have hSome := h₁.stored_earlier hBefore hFreeBefore hRet hStored
    exact (hLater rfl).2.1 (hSome.trans hLe) b rfl
  · rintro ⟨u, hRet⟩
    have hAll := h₁.full_earlier hBefore hFreeBefore hRet
    constructor
    · rintro b rfl
      exact (hLater rfl).2.2 (by omega) b rfl
    · rintro k rfl
      exact ((hLater rfl).1 k rfl).imp_left fun hMore => by omega

/-- A call of `is_full`, of `len` and of `is_empty`, each in one go. -/
def observe (t : ι) (full : Bool) (n : ℕ) (empty : Bool) : List (Label ι α) :=
  [.call t .isFull, .step t false, .step t false, .ret t (.isFull full),
    .call t .len, .step t false, .step t false, .step t false, .ret t (.len n),
    .call t .isEmpty, .step t false, .step t false, .ret t (.isEmpty empty)]

/-- Thread 0 stores a value, thread 1 looks, and thread 0 moves head to replace the value. -/
def fullThenHalf : List (Label (Fin 2) ℕ) :=
  .call 0 (.push 1) :: List.replicate 5 (.step 0 false) ++ .ret 0 .pushOk ::
    observe 1 true 1 false ++ .call 0 (.forcePush 2) :: List.replicate 3 (.step 0 false)

theorem popFree_observers_fullThenHalf :
    (Monitored.new .one (Fin 2) ℕ).HalfMovedIn (fullThenHalf ++ [.call 1 .isEmpty])
      [.step 1 false, .step 1 false] ∧ (Config.one).N = 1 :=
  ((popFree_observers (c := .one) (t := 1) (x := .isEmpty true)
    (m := (Runs.exec Monitored.timelyStep (.new .one (Fin 2) ℕ) (fullThenHalf ++
      .call 1 .isEmpty :: ([.step 1 false, .step 1 false] ++ .ret 1 (.isEmpty true) :: []))).get
        (by decide))
    (Option.some_get _).symm (by decide) rfl).2.1 ⟨0, .pushOk, by decide, .inl rfl⟩
      true rfl).resolve_left nofun

theorem System.exec_isFull {s : System c ι α} (hIdle : s.pc t = .idle) {b : Bool}
    (hFull : b = true ↔ s.queue.head + c.oneLap = s.queue.tail) :
    Runs.exec System.step s [.call t .isFull, .step t false, .step t false, .ret t (.isFull b)] =
      some s := by
  have hResult : (decide (s.queue.head + c.oneLap = s.queue.tail)) = b := by
    rw [Bool.eq_iff_iff, decide_eq_true_iff, hFull]
  have hSame : Function.update s.pc t .idle = s.pc := by
    rw [← hIdle, Function.update_eq_self]
  simp [Runs.exec, System.step, Pc.step, hIdle, Op.start, hResult, hSame]

/-- While a `force_push` is half-moved, a queue of one slot is not full any more, has length 0
and is empty; and after a word has been used too late, it is not full for good. -/
theorem observers_see_half_moved :
    ((∃ m, (Monitored.new .one (Fin 2) ℕ).TimelyRun (fullThenHalf ++ observe 1 false 0 true) m) ∧
      ∀ l ∈ fullThenHalf ++ observe 1 false 0 true, l.popFree) ∧
    ∃ labels s, Runs.exec System.step (.new .one (Fin 2) ℕ) labels = some s ∧
      (∀ l ∈ labels, l.popFree) ∧ .ret 1 (.isFull true) ∈ labels ∧ (∀ u, s.pc u = .idle) ∧
      Runs.exec System.step s [.call 1 .isFull, .step 1 false, .step 1 false,
        .ret 1 (.isFull false)] = some s := by
  constructor
  · have hRuns : (Runs.exec Monitored.timelyStep (.new .one (Fin 2) ℕ)
        (fullThenHalf ++ observe 1 false 0 true)).isSome := by decide
    exact ⟨⟨_, (Option.some_get hRuns).symm⟩, by decide⟩
  · obtain ⟨labels, q, hLate, hFree, hTail, hHead⟩ := System.exec_late
    have hFull := System.exec_isFull (s := System.late q) (t := 1) (b := true) rfl (by
      rw [show (System.late q).queue = q from rfl, hTail, hHead]
      decide)
    have hNotFull := System.exec_isFull (s := (⟨q.overrun, fun _ => .idle⟩ : System .one (Fin 2) ℕ))
      (t := 1) (b := false) rfl (by
        rw [show q.overrun.head = -2 from hHead, show q.overrun.tail = Config.one.next 0 from rfl]
        decide)
    refine ⟨_, _, Runs.exec_append_eq_some.mpr ⟨_, hLate,
      Runs.exec_append_eq_some.mpr ⟨_, hFull, System.exec_overrun hTail⟩⟩, ?_, ?_, fun _ => rfl,
      hNotFull⟩
    · exact List.forall_mem_append.mpr ⟨hFree, by decide⟩
    · simp

end PopFree

end NureQueue
