import NureQueue.Lib.Runs
import NureQueue.Queue

/-! # Bounds on indices and arithmetic, whatever the timing

A valid index word has its low part below N. All index words of a system are valid in
every state of every run, and on valid words no addition and no subtraction of the source
leaves its type. The checked operations below fail where the source's would overflow.
-/

namespace NureQueue

universe u v

variable {c : Config} {ι : Type v} {α : Type u}

def usizeSub (a b : ℕ) : Option ℕ := if b ≤ a then some (a - b) else none

namespace Config

variable (c : Config)

def Valid (x : c.Index) : Prop := c.index x < c.N

def usizeAdd (a b : ℕ) : Option ℕ := if a + b < 2 ^ c.u then some (a + b) else none

/-- `tail + 1` and `head + 1` of the source. -/
def indexSucc (x : c.Index) : Option c.Index := if x.toNat + 1 < 2 ^ c.w then some (x + 1) else none

def lenOfChecked (head tail : c.Index) : Option ℕ :=
  let hix := c.index head
  let tix := c.index tail
  if hix < tix then usizeSub tix hix
  else if hix > tix then (usizeSub c.N hix).bind fun d => c.usizeAdd d tix
  else if tail = head then some 0
  else some c.N

def dropIndexChecked (head : c.Index) (i : ℕ) : Option ℕ :=
  (c.usizeAdd (c.index head) i).bind fun j => if j < c.N then some j else usizeSub j c.N

/-- `next` with every operation checked; the additions of laps wrap in the source. -/
def nextChecked (x : c.Index) : Option c.Index :=
  (c.usizeAdd (c.index x) 1).bind fun j =>
    if j < c.N then c.indexSucc x else some (c.lap x + c.oneLap)

theorem two_mul_N_lt : 2 * c.N < 2 ^ c.u := by
  obtain ⟨hu, hN⟩ := c.need_le
  have hPow : 2 ^ c.u = 4 * 2 ^ (c.u - 2) := by
    rw [show (4 : ℕ) = 2 ^ 2 from rfl, ← Nat.pow_add]
    congr 1
    omega
  omega

theorem index_lap (x : c.Index) : c.index (c.lap x) = 0 := by
  have hMask : c.lap x &&& (c.oneLap - 1) = 0#c.w := by
    rw [lap]
    ext i
    simp only [BitVec.getElem_and, BitVec.getElem_not, BitVec.getElem_zero]
    cases x[i] <;> cases (c.oneLap - 1)[i] <;> rfl
  rw [index, hMask]
  simp

end Config

namespace Config.Valid

variable {x : c.Index}

theorem zero (c : Config) : c.Valid 0 := by
  rw [Valid, index_eq]
  simpa using c.pos

theorem toNat_succ_lt (h : c.Valid x) : x.toNat + 1 < 2 ^ c.w := by
  have hN := c.N_lt_L
  have hDiv := c.L_mul_laps
  have hLt := x.isLt
  rw [Valid, index_eq] at h
  by_contra hOver
  -- the largest word has all of its low bits set
  have hLast : x.toNat = c.L * (c.laps - 1) + (c.L - 1) := by
    have hLaps := c.four_le_laps
    have hSplit : c.L * c.laps = c.L * (c.laps - 1) + c.L := by
      rw [← Nat.mul_succ]
      congr 1
      omega
    omega
  rw [hLast, Nat.mul_add_mod, Nat.mod_eq_of_lt (by omega)] at h
  omega

theorem indexSucc (h : c.Valid x) : c.indexSucc x = some (x + 1) := by
  rw [Config.indexSucc, if_pos h.toNat_succ_lt]

theorem next (h : c.Valid x) : c.Valid (c.next x) := by
  rw [Valid, Config.next]
  split
  · rename_i hLt
    rw [c.index_succ h]
    exact hLt
  · rw [c.index_add_oneLap, c.index_lap]
    exact c.pos

theorem nextChecked (h : c.Valid x) : c.nextChecked x = some (c.next x) := by
  have hLt : c.index x < c.N := h
  have hTwo := c.two_mul_N_lt
  rw [Config.nextChecked, usizeAdd, if_pos (by omega), Option.bind_some, h.indexSucc, Config.next]
  split <;> rfl

theorem sub_oneLap (h : c.Valid x) : c.Valid (x - c.oneLap) := by
  have hSame := c.index_add_oneLap (x - c.oneLap)
  rw [BitVec.sub_add_cancel] at hSame
  rw [Valid, ← hSame]
  exact h

end Config.Valid

namespace Config

variable {head tail : c.Index}

theorem lenOf_le (hTail : c.Valid tail) : c.lenOf head tail ≤ c.N := by
  have hLt : c.index tail < c.N := hTail
  simp only [lenOf]
  split
  · omega
  · split
    · omega
    · split <;> omega

theorem lenOfChecked_eq (hHead : c.Valid head) (hTail : c.Valid tail) :
    c.lenOfChecked head tail = some (c.lenOf head tail) := by
  have hHeadLt : c.index head < c.N := hHead
  have hTailLt : c.index tail < c.N := hTail
  have hTwo := c.two_mul_N_lt
  simp only [lenOfChecked, lenOf]
  split
  · rw [usizeSub, if_pos (by omega)]
  · split
    · rw [usizeSub, if_pos (by omega), Option.bind_some, usizeAdd, if_pos (by omega)]
    · split <;> rfl

theorem dropIndexChecked_eq (hHead : c.Valid head) {i : ℕ} (hi : i < c.N) :
    ∃ j < c.N, c.dropIndexChecked head i = some j ∧
      j = if c.index head + i < c.N then c.index head + i else c.index head + i - c.N := by
  have hHeadLt : c.index head < c.N := hHead
  have hTwo := c.two_mul_N_lt
  rw [dropIndexChecked, usizeAdd, if_pos (by omega), Option.bind_some]
  split
  · rename_i hLt
    exact ⟨_, hLt, rfl, rfl⟩
  · rename_i hLap
    rw [usizeSub, if_pos (by omega)]
    exact ⟨_, by omega, rfl, rfl⟩

end Config

/-- The head and tail words in the locals of a call. -/
def Pc.words : Pc c α → List c.Index
  | .pushStamp _ _ tail | .pushCas _ _ tail | .pushWrite _ _ tail | .pushPublish _ tail
  | .fullLoad _ tail | .forceCas _ tail | .forceStore _ tail | .forceReplace _ tail
  | .forcePublish tail _ | .fullHead tail | .lenHead tail => [tail]
  | .popStamp head | .popCas head | .popRead head | .popPublish head _ | .popTail head
  | .emptyTail head => [head]
  | .lenCheck tail head => [tail, head]
  | _ => []

def Access.slot : Access → Option ℕ
  | .loadStamp i | .writeValue i | .readValue i | .replaceValue i | .storeStamp i => some i
  | _ => none

section Step

variable {q q' : Queue c α} {p p' : Pc c α} {spurious : Bool} {a : Access}

theorem Closure.enter_words (f : Closure) (value : α) (tail : c.Index) :
    (f.enter value tail : Pc c α).words = [tail] := by
  cases f <;> rfl

theorem Pc.words_step (hStep : p.step q spurious = some (a, q', p')) :
    ∀ x ∈ p'.words, x ∈ p.words ∨ x = q.head ∨ x = q.tail := by
  cases p with
  | idle | done => cases hStep
  | pushStamp f =>
    cases hStep
    split
    · simp [words]
    · split
      · rw [Closure.enter_words]
        simp [words]
      · simp [words]
  | popStamp =>
    cases hStep
    split
    · simp [words]
    · split <;> simp [words]
  | pushCas | forceCas | popCas =>
    rw [Pc.step] at hStep
    split at hStep <;> cases hStep <;> simp [words]
  | fullLoad | popTail | lenCheck =>
    cases hStep
    split <;> simp [words]
  | _ =>
    cases hStep
    simp [words]

theorem Pc.index_step (hStep : p.step q spurious = some (a, q', p')) :
    (q'.head = q.head ∨ ∃ x ∈ p.words, q'.head = c.next x ∨ q'.head = c.next x - c.oneLap) ∧
    (q'.tail = q.tail ∨ ∃ x ∈ p.words, q'.tail = c.next x) := by
  cases p with
  | idle | done => cases hStep
  | pushCas | forceCas | popCas =>
    rw [Pc.step] at hStep
    split at hStep <;> cases hStep <;> simp [words]
  | _ =>
    cases hStep
    simp [words]

theorem Pc.slot_step {i : ℕ} (hStep : p.step q spurious = some (a, q', p'))
    (hSlot : a.slot = some i) : ∃ x ∈ p.words, i = c.index x := by
  cases p with
  | idle | done => cases hStep
  | pushCas | forceCas | popCas =>
    rw [Pc.step] at hStep
    split at hStep <;> cases hStep <;> cases hSlot
  | pushStamp | pushWrite | pushPublish | forceReplace | forcePublish | popStamp | popRead
  | popPublish =>
    cases hStep
    cases hSlot
    simp [words]
  | _ =>
    cases hStep
    cases hSlot

theorem Pc.len_step {n : ℕ} (hStep : p.step q spurious = some (a, q', p'))
    (hLen : p' = .done (.len n)) : ∃ head ∈ p.words, ∃ tail ∈ p.words, n = c.lenOf head tail := by
  have hDone := congrArg (Option.map fun y => y.2.2) hStep
  rw [hLen] at hDone
  cases p with
  | lenCheck tail head =>
    simp only [Pc.step, Option.map_some, Option.some.injEq] at hDone
    split at hDone <;> cases hDone
    exact ⟨head, by simp [words], tail, by simp [words], rfl⟩
  | pushStamp f =>
    simp only [Pc.step, Option.map_some, Option.some.injEq] at hDone
    cases f <;> split_ifs at hDone <;> cases hDone
  | popStamp | fullLoad | popTail =>
    simp only [Pc.step, Option.map_some, Option.some.injEq] at hDone
    split_ifs at hDone <;> cases hDone
  | pushCas | forceCas | popCas =>
    rw [Pc.step] at hDone
    split at hDone <;> cases hDone
  | pushPublish f =>
    cases f <;> cases hDone
  | _ => cases hDone

end Step

/-- The head and tail words of a system, with those that a call computes from a word it holds:
the head of a full queue in `force_push`, and the successors. -/
inductive System.Word (s : System c ι α) : c.Index → Prop
  | head : s.Word s.queue.head
  | tail : s.Word s.queue.tail
  | held (t : ι) {x : c.Index} (hx : x ∈ (s.pc t).words) : s.Word x
  | oldHead (t : ι) {x : c.Index} (hx : x ∈ (s.pc t).words) : s.Word (x - c.oneLap)
  | newTail (t : ι) {x : c.Index} (hx : x ∈ (s.pc t).words) : s.Word (c.next x)
  | newHead (t : ι) {x : c.Index} (hx : x ∈ (s.pc t).words) : s.Word (c.next x - c.oneLap)

/-- The low parts that the masking of an index word yields are slots of the buffer. -/
structure System.Masked (s : System c ι α) : Prop where
  head : c.Valid s.queue.head
  tail : c.Valid s.queue.tail
  words : ∀ t, ∀ x ∈ (s.pc t).words, c.Valid x

structure System.Bounded (s : System c ι α) : Prop where
  head : c.Valid s.queue.head
  tail : c.Valid s.queue.tail
  words : ∀ t, ∀ x ∈ (s.pc t).words, c.Valid x
  len : ∀ t n, s.pc t = .done (.len n) → n ≤ c.N

theorem System.Bounded.masked {s : System c ι α} (h : s.Bounded) : s.Masked :=
  ⟨h.head, h.tail, h.words⟩

theorem System.Bounded.word {s : System c ι α} (h : s.Bounded) {x : c.Index} (hx : s.Word x) :
    c.Valid x := by
  cases hx with
  | head => exact h.head
  | tail => exact h.tail
  | held t hx => exact h.words t x hx
  | oldHead t hx => exact (h.words t _ hx).sub_oneLap
  | newTail t hx => exact (h.words t _ hx).next
  | newHead t hx => exact (h.words t _ hx).next.sub_oneLap

theorem System.Masked.new (c : Config) (ι : Type v) (α : Type u) :
    (System.new c ι α).Masked where
  head := .zero c
  tail := .zero c
  words _ _ hx := by cases hx

theorem System.Bounded.new (c : Config) (ι : Type v) (α : Type u) :
    (System.new c ι α).Bounded where
  head := .zero c
  tail := .zero c
  words _ _ hx := by cases hx
  len _ _ hDone := by cases hDone

section Runs

variable [DecidableEq ι] {s s' : System c ι α}

theorem System.Masked.update (h : s.Masked) {t : ι} {q : Queue c α} {p : Pc c α}
    (hHead : c.Valid q.head) (hTail : c.Valid q.tail) (hWords : ∀ x ∈ p.words, c.Valid x) :
    System.Masked ⟨q, Function.update s.pc t p⟩ where
  head := hHead
  tail := hTail
  words := by
    apply (Function.forall_update_iff s.pc fun _ p => ∀ x ∈ p.words, c.Valid x).mpr
    exact ⟨hWords, fun u _ => h.words u⟩

theorem System.Masked.access (h : s.Masked) {t : ι} {spurious : Bool} {a : Access}
    {q : Queue c α} {p : Pc c α} (hStep : (s.pc t).step s.queue spurious = some (a, q, p)) :
    System.Masked ⟨q, Function.update s.pc t p⟩ := by
  have hWords := h.words t
  obtain ⟨hHead, hTail⟩ := Pc.index_step hStep
  apply h.update
  · obtain hSame | ⟨x, hx, hNext | hNext⟩ := hHead
    · rw [hSame]
      exact h.head
    · rw [hNext]
      exact (hWords x hx).next
    · rw [hNext]
      exact (hWords x hx).next.sub_oneLap
  · obtain hSame | ⟨x, hx, hNext⟩ := hTail
    · rw [hSame]
      exact h.tail
    · rw [hNext]
      exact (hWords x hx).next
  · intro x hx
    obtain hOld | rfl | rfl := Pc.words_step hStep x hx
    · exact hWords x hOld
    · exact h.head
    · exact h.tail

theorem System.Bounded.of_masked (h : s.Bounded) {t : ι} {q : Queue c α} {p : Pc c α}
    (hMasked : System.Masked ⟨q, Function.update s.pc t p⟩)
    (hLen : ∀ n, p = .done (.len n) → n ≤ c.N) :
    System.Bounded ⟨q, Function.update s.pc t p⟩ where
  head := hMasked.head
  tail := hMasked.tail
  words := hMasked.words
  len := by
    apply (Function.forall_update_iff s.pc fun _ p => ∀ n, p = .done (.len n) → n ≤ c.N).mpr
    exact ⟨hLen, fun u _ => h.len u⟩

theorem System.Bounded.access (h : s.Bounded) {t : ι} {spurious : Bool} {a : Access}
    {q : Queue c α} {p : Pc c α} (hStep : (s.pc t).step s.queue spurious = some (a, q, p)) :
    System.Bounded ⟨q, Function.update s.pc t p⟩ := by
  apply h.of_masked (h.masked.access hStep)
  intro n hDone
  obtain ⟨head, -, tail, hTail, rfl⟩ := Pc.len_step hStep hDone
  exact c.lenOf_le (h.words t tail hTail)

theorem Op.start_words (op : Op α) : (op.start : Pc c α).words = [] := by
  cases op <;> rfl

variable [DecidableEq α]

theorem System.Masked.step (h : s.Masked) {l : Label ι α} (hStep : s.step l = some s') :
    s'.Masked := by
  cases l with
  | call t op =>
    rw [System.step] at hStep
    split at hStep <;> cases hStep
    exact h.update h.head h.tail (by simp [Op.start_words])
  | step t spurious =>
    obtain ⟨⟨a, q, p⟩, hAccess, rfl⟩ := Option.map_eq_some_iff.mp hStep
    exact h.access hAccess
  | ret t r =>
    rw [System.step] at hStep
    split at hStep <;> cases hStep
    exact h.update h.head h.tail nofun

theorem System.Bounded.step (h : s.Bounded) {l : Label ι α} (hStep : s.step l = some s') :
    s'.Bounded := by
  have hMasked := h.masked.step hStep
  cases l with
  | call t op =>
    rw [System.step] at hStep
    split at hStep <;> cases hStep
    exact h.of_masked hMasked (by cases op <;> nofun)
  | step t spurious =>
    obtain ⟨⟨a, q, p⟩, hAccess, rfl⟩ := Option.map_eq_some_iff.mp hStep
    exact h.access hAccess
  | ret t r =>
    rw [System.step] at hStep
    split at hStep <;> cases hStep
    exact h.of_masked hMasked nofun

/-- In every state of every run, with any number of wraps and any staleness: each index
word is valid and its successor does not overflow; each access goes to a slot of the
buffer; no `usize` operation of the successor, of `len` and of `Drop::drop` overflows or
underflows; and `len` returns at most N. -/
theorem index_arithmetic_safe {labels : List (Label ι α)}
    (hRun : Runs.exec System.step (System.new c ι α) labels = some s) :
    (∀ x, s.Word x → c.index x < c.N ∧ c.indexSucc x = some (x + 1) ∧
      c.nextChecked x = some (c.next x)) ∧
    (∀ t spurious a q p i, (s.pc t).step s.queue spurious = some (a, q, p) →
      a.slot = some i → i < c.N) ∧
    (∀ head tail, s.Word head → s.Word tail →
      c.lenOfChecked head tail = some (c.lenOf head tail) ∧ c.lenOf head tail ≤ c.N) ∧
    (∀ i < c.lenOf s.queue.head s.queue.tail, ∃ j < c.N,
      c.dropIndexChecked s.queue.head i = some j ∧ s.queue.dropIndices[i]? = some j) ∧
    (∀ t n, s.pc t = .done (.len n) → n ≤ c.N) := by
  have h : s.Bounded := Runs.exec_invariant (fun _ _ _ hs hStep => hs.step hStep) hRun (.new c ι α)
  refine ⟨?_, ?_, ?_, ?_, h.len⟩
  · intro x hx
    have hValid := h.word hx
    exact ⟨hValid, hValid.indexSucc, hValid.nextChecked⟩
  · intro t spurious a q p i hStep hSlot
    obtain ⟨x, hx, rfl⟩ := Pc.slot_step hStep hSlot
    exact h.words t x hx
  · intro head tail hHead hTail
    exact ⟨c.lenOfChecked_eq (h.word hHead) (h.word hTail), c.lenOf_le (h.word hTail)⟩
  · intro i hi
    obtain ⟨j, hj, hIndex, rfl⟩ :=
      c.dropIndexChecked_eq h.head (hi.trans_le (c.lenOf_le h.tail))
    refine ⟨_, hj, hIndex, ?_⟩
    simp [Queue.dropIndices, hi]

/-- Thread 1 has read the indices on both sides of a push of thread 0. -/
def lenAcrossPush : List (Label (Fin 2) ℕ) :=
  [Label.call 1 .len, Label.step 1 false, Label.call 0 (.push 1)] ++
  List.replicate 5 (Label.step 0 false) ++ [Label.step 1 false]

theorem index_arithmetic_safe_lenAcrossPush :
    let s := (Runs.exec System.step (.new .one (Fin 2) ℕ) lenAcrossPush).get (by decide)
    (∀ x, s.Word x → Config.one.index x < 1 ∧ Config.one.indexSucc x = some (x + 1) ∧
      Config.one.nextChecked x = some (Config.one.next x)) ∧
    (∀ t spurious a q p i, (s.pc t).step s.queue spurious = some (a, q, p) →
      a.slot = some i → i < 1) ∧
    (∀ head tail, s.Word head → s.Word tail →
      Config.one.lenOfChecked head tail = some (Config.one.lenOf head tail) ∧
      Config.one.lenOf head tail ≤ 1) ∧
    (∀ i < Config.one.lenOf s.queue.head s.queue.tail, ∃ j < 1,
      Config.one.dropIndexChecked s.queue.head i = some j ∧
      s.queue.dropIndices[i]? = some j) ∧
    (∀ t n, s.pc t = .done (.len n) → n ≤ 1) :=
  index_arithmetic_safe (Option.some_get _).symm

end Runs

end NureQueue
