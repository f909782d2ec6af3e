import NureQueue.Ownership

/-! # What the plain stores overwrite, and which way positions move

`force_push` stores tail and every call stores the stamp of its slot, both without a
comparison. In a timely run each of these stores finds the value that its call has seen
before it won its exchange; so head, tail and the stamps only move forward.
-/

namespace NureQueue

universe u v

variable {c : Config} {ι : Type v} {α : Type u}

/-- The local `stamp` of a call after an access. -/
def Access.stampLocal (q : Queue c α) (stamp : c.Index) : Access → c.Index
  | .loadStamp i => (q.buffer i).stamp
  | _ => stamp

structure Stamped (c : Config) (ι : Type v) (α : Type u) extends Monitored c ι α where
  stamp : ι → c.Index

namespace Stamped

variable [DecidableEq ι]

def stampAfter (m : Stamped c ι α) : Label ι α → ι → c.Index
  | .step t spurious =>
    match (m.pc t).step m.queue spurious with
    | some (a, _, _) => Function.update m.stamp t (a.stampLocal m.queue (m.stamp t))
    | none => m.stamp
  | _ => m.stamp

def timelyStep [DecidableEq α] (m : Stamped c ι α) (l : Label ι α) : Option (Stamped c ι α) :=
  (m.toMonitored.timelyStep l).map fun m' => ⟨m', m.stampAfter l⟩

end Stamped

/-- How a call at this point has found the stamp that it loaded last. -/
def Pc.Saw (stamp : c.Index) : Pc c α → Prop
  | .pushCas _ _ tail | .pushWrite _ _ tail | .pushPublish _ tail => stamp = tail
  | .fullLoad _ tail | .forceCas _ tail | .forceStore _ tail | .forceReplace _ tail
  | .forcePublish tail _ => stamp + c.oneLap = tail + 1
  | .popCas head | .popRead head | .popPublish head _ => stamp = head + 1
  | .popTail head => stamp = head
  | _ => True

theorem Pc.Saw.step {p p' : Pc c α} {q q' : Queue c α} {stamp : c.Index} {spurious : Bool}
    {a : Access} (hSaw : p.Saw stamp) (hStep : p.step q spurious = some (a, q', p')) :
    p'.Saw (a.stampLocal q stamp) := by
  cases p with
  | idle | done => cases hStep
  | pushStamp f =>
    cases hStep
    split_ifs with hFree hLap
    · exact hFree.symm
    · cases f <;> exact hLap
    · trivial
  | popStamp =>
    cases hStep
    split_ifs with hStored hFree
    · exact hStored.symm
    · exact hFree
    · trivial
  | pushCas | forceCas | popCas =>
    rw [Pc.step] at hStep
    split at hStep <;> cases hStep
    · exact hSaw
    · trivial
  | fullLoad | popTail | lenCheck =>
    cases hStep
    split_ifs <;> trivial
  | pushWrite | forceStore | forceReplace | popRead =>
    cases hStep
    exact hSaw
  | _ =>
    cases hStep
    trivial

section Loaded

variable [DecidableEq ι] [DecidableEq α] {m m' : Monitored c ι α}

theorem Stamped.saw_step {stamp : ι → c.Index} (hSaw : ∀ t, (m.pc t).Saw (stamp t))
    {l : Label ι α} (hStep : m.timelyStep l = some m') (t : ι) :
    (m'.pc t).Saw ((⟨m, stamp⟩ : Stamped c ι α).stampAfter l t) := by
  have hUpdate : ∀ (u : ι) (p : Pc c α), p.Saw (stamp u) →
      ∀ t, (Function.update m.pc u p t).Saw (stamp t) := fun u p hNew =>
    (Function.forall_update_iff m.pc fun t p => p.Saw (stamp t)).mpr ⟨hNew, fun t _ => hSaw t⟩
  obtain ⟨u, op, rfl, -, rfl⟩ |
    ⟨u, spurious, a, q, p, rfl, -, hAccess, rfl⟩ | ⟨u, y, rfl, -, rfl⟩ :=
      Monitored.timelyStep_cases hStep
  · exact hUpdate u op.start (by cases op <;> trivial) t
  · simp only [stampAfter, hAccess, Monitored.access]
    obtain rfl | hne := eq_or_ne t u
    · rw [Function.update_self, Function.update_self]
      exact (hSaw t).step hAccess
    · rw [Function.update_of_ne hne, Function.update_of_ne hne]
      exact hSaw t
  · exact hUpdate u .idle trivial t

theorem Monitored.TimelyRun.stamped {labels : List (Label ι α)} (hRun : m.TimelyRun labels m')
    (stamp : ι → c.Index) (hSaw : ∀ t, (m.pc t).Saw (stamp t)) :
    ∃ stamp', Runs.exec Stamped.timelyStep ⟨m, stamp⟩ labels = some ⟨m', stamp'⟩ ∧
      ∀ t, (m'.pc t).Saw (stamp' t) := by
  refine Runs.exec_induction (P := fun labels m' => ∃ stamp',
    Runs.exec Stamped.timelyStep ⟨m, stamp⟩ labels = some ⟨m', stamp'⟩ ∧
      ∀ t, (m'.pc t).Saw (stamp' t)) ⟨stamp, rfl, hSaw⟩ ?_ labels m' hRun
  rintro labels m₁ l m₂ - ⟨stamp₁, hStamped, hSaw₁⟩ hStep
  refine ⟨_, Runs.exec_snoc_eq_some.mpr ⟨_, hStamped, ?_⟩, Stamped.saw_step hSaw₁ hStep⟩
  rw [Stamped.timelyStep, hStep]
  rfl

end Loaded

section Stores

variable {m : Monitored c ι α} {r : Ring ι α} {t u : ι}

theorem Represents.forceStore_tail (h : Represents m r) {value : α} {tail : c.Index}
    (hPc : m.pc t = .forceStore value tail) :
    m.queue.tail = tail ∧ m.moves .tail = m.seen t := by
  obtain ⟨hWord, hTail, -⟩ := h.half_local hPc
  constructor
  · rw [h.mem.tail, hTail, hWord]
  · rw [h.tail, hTail]

theorem Represents.forceStore_unique (h : Represents m r) {value value' : α}
    {tail tail' : c.Index} (ht : m.pc t = .forceStore value tail)
    (hu : m.pc u = .forceStore value' tail') : t = u := by
  obtain ⟨-, -, hHalf⟩ := h.half_local ht
  obtain ⟨-, -, hHalf'⟩ := h.half_local hu
  exact Option.some.inj (hHalf.symm.trans hHalf')

theorem Represents.storeStamp_stamp (h : Represents m r) {stamp : c.Index}
    (hSaw : (m.pc t).Saw stamp) {spurious : Bool} {i : ℕ} {q : Queue c α} {p : Pc c α}
    (hStep : (m.pc t).step m.queue spurious = some (.storeStamp i, q, p)) :
    (m.queue.buffer i).stamp = stamp := by
  have hLocal := h.locals t
  cases hPc : m.pc t with
  | pushPublish | popPublish =>
    rw [hPc] at hStep hLocal hSaw
    obtain ⟨rfl, hCell, -⟩ := hLocal
    cases hStep
    rw [h.mem.stamp_enc, hCell]
    exact hSaw.symm
  | forcePublish tail old =>
    rw [hPc] at hStep hLocal hSaw
    obtain ⟨k, hk, rfl, hCell, -⟩ := hLocal
    cases hStep
    rw [h.mem.stamp_enc, hk, Nat.add_mod_right, hCell]
    -- the stamp of the written slot of k is a lap behind that of the slot of k + N
    change stamp + c.oneLap = c.enc (m.seen t) + 1 at hSaw
    rw [hk, c.enc_add_N, BitVec.add_assoc, BitVec.add_comm c.oneLap, ← BitVec.add_assoc] at hSaw
    exact ((BitVec.add_left_inj _).mp hSaw).symm
  | pushCas | forceCas | popCas =>
    rw [hPc, Pc.step] at hStep
    split at hStep <;> cases hStep
  | _ =>
    rw [hPc] at hStep
    cases hStep

end Stores

namespace Cell

variable {x y : Cell ι}

def code (c : Config) (x : Cell ι) : ℕ := MixedRadix.code c.N c.L x.pos + x.hold.bit

theorem stamp_eq (x : Cell ι) : x.stamp c = BitVec.ofNat c.w (x.code c) := by
  obtain ⟨pos, hold⟩ := x
  cases hold with
  | free | pushing => rfl
  | stored | popping | forcing => exact (BitVec.ofNat_add _ _).symm

theorem code_le (hMod : x.pos % c.N = y.pos % c.N) (hVersion : x.version ≤ y.version) :
    x.code c ≤ y.code c := by
  have hx := x.hold.bit_le_one
  have hy := y.hold.bit_le_one
  have hMono := MixedRadix.code_mono c.N_lt_L.le c.pos
  rw [version, version] at hVersion
  have hPos : x.pos ≤ y.pos := by omega
  rw [code, code]
  obtain hSame | hLess := Nat.eq_or_lt_of_le hPos
  · rw [hSame]
    omega
  · -- a later position of the slot is at least a lap further
    have hDvd : c.N ∣ y.pos - x.pos := (Nat.modEq_iff_dvd' hPos).mp hMod
    have hLap : x.pos + c.N ≤ y.pos := by
      have hLe := Nat.le_of_dvd (by omega) hDvd
      omega
    have hCode := hMono hLap
    rw [MixedRadix.code_add_period c.pos] at hCode
    have hL := c.N_lt_L
    omega

end Cell

/-- The stamp of slot i read as an unbounded number: of all numbers that have its word, the
one nearest to the number of head. -/
def Monitored.stampPos (m : Monitored c ι α) (i : ℕ) : ℤ :=
  MixedRadix.code c.N c.L (m.moves .head) + ((m.queue.buffer i).stamp - m.queue.head).toInt

section Positions

variable {m m' : Monitored c ι α} {r r' : Ring ι α} {i : ℕ}

theorem Ring.Ok.code_near (h : r.Ok c.N) (hi : i < c.N) :
    MixedRadix.code c.N c.L r.head ≤ (r.cell i).code c + c.L ∧
    (r.cell i).code c ≤ MixedRadix.code c.N c.L r.head + c.L + 1 := by
  have hNear := h.near hi
  have hBit := (r.cell i).hold.bit_le_one
  have hMono := MixedRadix.code_mono c.N_lt_L.le c.pos
  have hLow := hMono hNear.1
  have hHigh := hMono hNear.2.le
  rw [MixedRadix.code_add_period c.pos] at hLow hHigh
  rw [Cell.code]
  omega

theorem Represents.stampPos_eq (h : Represents m r) (hi : i < c.N) :
    m.stampPos i = (r.cell i).code c := by
  obtain ⟨hLow, hHigh⟩ := h.ok.code_near hi
  have hN := c.pos
  have hNL := c.N_lt_L
  have hL := c.two_mul_L_le
  have hPow : ((2 ^ (c.w - 1) : ℕ) : ℤ) = 2 ^ (c.w - 1) := by push_cast; rfl
  have hWord : (m.queue.buffer i).stamp - m.queue.head =
      BitVec.ofInt c.w ((r.cell i).code c - MixedRadix.code c.N c.L r.head) := by
    rw [BitVec.sub_eq_iff_eq_add, h.mem.stamp i hi, Cell.stamp_eq, h.mem.head, Config.enc,
      ← BitVec.ofInt_natCast, ← BitVec.ofInt_natCast, ← BitVec.ofInt_add, Int.sub_add_cancel]
  rw [Monitored.stampPos, h.head, hWord, BitVec.toInt_ofInt_eq_self c.w_pos (by omega) (by omega)]
  omega

theorem Move.version {t : ι} {p p' : Pc c α} (hMove : Move c t r p r' p') (i : ℕ) :
    (r.cell i).version ≤ (r'.cell i).version := by
  have hN := c.pos
  cases hMove with
  | claimPush f value tail hCell => exact Ring.version_update (by rw [hCell]; exact le_rfl) i
  | claimForce value tail _ _ hCell => exact Ring.version_update (by rw [hCell]; exact le_rfl) i
  | claimPop head hCell => exact Ring.version_update (by rw [hCell]; exact le_rfl) i
  | publish f tail k hCell =>
    exact Ring.version_update (by rw [hCell]; exact Nat.le_succ _) i
  | publishForce tail old k hCell =>
    apply Ring.version_update
    rw [hCell]
    simp only [Cell.version, Hold.bit]
    omega
  | release head msg k hCell =>
    apply Ring.version_update
    rw [hCell]
    simp only [Cell.version, Hold.bit]
    omega
  | _ => exact le_rfl

variable [DecidableEq ι] [DecidableEq α]

theorem Represents.timelyStep_version {l : Label ι α} (h : Represents m r)
    (hStep : m.timelyStep l = some m') :
    ∃ r', Represents m' r' ∧ ∀ i, (r.cell i).version ≤ (r'.cell i).version := by
  obtain ⟨t, op, -, hIdle, rfl⟩ |
    ⟨t, spurious, a, q, p, -, hTimely, hAccess, rfl⟩ | ⟨t, x, -, hDone, rfl⟩ :=
      Monitored.timelyStep_cases hStep
  · exact ⟨r, h.call hIdle op, fun _ => le_rfl⟩
  · obtain ⟨r', hNext, hMove⟩ := h.advances hTimely hAccess
    exact ⟨r', hNext, hMove.version⟩
  · exact ⟨r, h.ret hDone, fun _ => le_rfl⟩

theorem Represents.stampPos_le {l : Label ι α} (h : Represents m r)
    (hStep : m.timelyStep l = some m') (hi : i < c.N) : m.stampPos i ≤ m'.stampPos i := by
  obtain ⟨r', h', hVersion⟩ := h.timelyStep_version hStep
  have hMod : (r.cell i).pos % c.N = (r'.cell i).pos % c.N := by
    rw [h.ok.pos_mod i hi, h'.ok.pos_mod i hi]
  rw [h.stampPos_eq hi, h'.stampPos_eq hi]
  exact Int.ofNat_le.mpr (Cell.code_le hMod (hVersion i))

theorem Represents.stampPos_eq_of_same {l : Label ι α} (h : Represents m r)
    (hStep : m.timelyStep l = some m') (hi : i < c.N)
    (hSame : (m'.queue.buffer i).stamp = (m.queue.buffer i).stamp) :
    m'.stampPos i = m.stampPos i := by
  obtain ⟨r', h', -⟩ := h.timelyStep_version hStep
  have hLe := h.stampPos_le hStep hi
  rw [h.stampPos_eq hi, h'.stampPos_eq hi] at hLe ⊢
  have hNear := (h.ok.code_near hi).1
  have hNear' := (h'.ok.code_near hi).2
  have hHead : r'.head ≤ r.head + c.N := by
    have hMoves := (Monitored.timelyStep_moves hStep .head).2
    have hN := c.pos
    rw [h.head, h'.head] at hMoves
    omega
  have hCode := MixedRadix.code_mono c.N_lt_L.le c.pos hHead
  rw [MixedRadix.code_add_period c.pos] at hCode
  have hN := c.pos
  have hNL := c.N_lt_L
  have hL := c.four_mul_L_le
  -- the two numbers have one word and differ by less than a cycle
  rw [h'.mem.stamp i hi, h.mem.stamp i hi, Cell.stamp_eq, Cell.stamp_eq, ← BitVec.toNat_inj,
    BitVec.toNat_ofNat, BitVec.toNat_ofNat] at hSame
  exact congrArg Nat.cast (Nat.ModEq.eq_of_abs_lt hSame (abs_lt.mpr ⟨by omega, by omega⟩))

theorem Monitored.TimelyRun.stampPos_le {labels : List (Label ι α)} (hRun : m.TimelyRun labels m')
    (h : ∃ r, Represents m r) (hi : i < c.N) : m.stampPos i ≤ m'.stampPos i := by
  have hBoth : (∃ r, Represents m' r) ∧ m.stampPos i ≤ m'.stampPos i := by
    apply Runs.exec_invariant (P := fun m' : Monitored c ι α =>
      (∃ r, Represents m' r) ∧ m.stampPos i ≤ m'.stampPos i) ?_ hRun ⟨h, le_rfl⟩
    rintro m₁ l m₂ ⟨⟨r₁, h₁⟩, hLe⟩ hStep
    exact ⟨h₁.timelyStep hStep, hLe.trans (h₁.stampPos_le hStep hi)⟩
  exact hBoth.2

end Positions

/-- What the plain stores rely on in the state after the labels, and how positions move. -/
structure Monitored.StoresSafe [DecidableEq ι] [DecidableEq α] (m : Monitored c ι α)
    (labels : List (Label ι α)) : Prop where
  /-- A `force_push` that is about to store tail finds there the word that it has loaded and
  computed the new one from, and tail has not moved since the load. -/
  storeTail : ∀ t value tail, m.pc t = .forceStore value tail →
    m.queue.tail = tail ∧ m.moves .tail = m.seen t
  oneHalf : ∀ t u value value' tail tail', m.pc t = .forceStore value tail →
    m.pc u = .forceStore value' tail' → t = u
  /-- A call that is about to store a stamp finds in the slot the stamp that it has loaded
  last, before its winning exchange. -/
  storeStamp : ∃ stamp, Runs.exec Stamped.timelyStep ⟨Monitored.new c ι α, fun _ => 0⟩ labels =
      some ⟨m, stamp⟩ ∧
    ∀ t spurious i q p, (m.pc t).step m.queue spurious = some (.storeStamp i, q, p) →
      (m.queue.buffer i).stamp = stamp t
  words : m.queue.head = c.enc (m.moves .head) ∧ m.queue.tail = c.enc (m.moves .tail) ∧
    ∀ i < c.N, (m.queue.buffer i).stamp = BitVec.ofInt c.w (m.stampPos i)
  distance : m.moves .head ≤ m.moves .tail ∧ m.moves .tail ≤ m.moves .head + c.N
  kept : ∀ l m', m.timelyStep l = some m' → ∀ i < c.N,
    (m'.queue.buffer i).stamp = (m.queue.buffer i).stamp → m'.stampPos i = m.stampPos i
  forward : ∀ more m', m.TimelyRun more m' →
    (∀ x, m.moves x ≤ m'.moves x) ∧ ∀ i < c.N, m.stampPos i ≤ m'.stampPos i

section Runs

variable [DecidableEq ι] [DecidableEq α] {m : Monitored c ι α}

/-- In every timely run the plain stores overwrite only what their calls have seen, and all
positions move forward. -/
theorem plain_stores_safe {labels : List (Label ι α)}
    (hRun : (Monitored.new c ι α).TimelyRun labels m) : m.StoresSafe labels := by
  obtain ⟨r, h⟩ := hRun.represents ⟨_, Represents.new c ι α⟩
  obtain ⟨stamp, hStamped, hSaw⟩ := hRun.stamped (fun _ => (0 : c.Index)) fun _ => trivial
  constructor
  · intro t value tail hPc
    exact h.forceStore_tail hPc
  · intro t u value value' tail tail' ht hu
    exact h.forceStore_unique ht hu
  · refine ⟨stamp, hStamped, ?_⟩
    intro t spurious i q p hStep
    exact h.storeStamp_stamp (hSaw t) hStep
  · rw [h.head, h.tail]
    refine ⟨h.mem.head, h.mem.tail, ?_⟩
    intro i hi
    rw [h.stampPos_eq hi, h.mem.stamp i hi, Cell.stamp_eq, BitVec.ofInt_natCast]
  · rw [h.head, h.tail]
    exact ⟨h.ok.head_le, h.ok.tail_le⟩
  · intro l m' hStep i hi hSame
    exact h.stampPos_eq_of_same hStep hi hSame
  · intro more m' hMore
    exact ⟨hMore.moves_le, fun i hi => hMore.stampPos_le ⟨r, h⟩ hi⟩

theorem plain_stores_safe_storingTail :
    let m := (Runs.exec Monitored.timelyStep (.new .one (Fin 2) ℕ) replacing.dropLast).get
      (by decide)
    m.pc 0 = .forceStore 2 (Config.one.enc 1) ∧ m.StoresSafe replacing.dropLast :=
  ⟨by decide, plain_stores_safe (Option.some_get _).symm⟩

end Runs

end NureQueue
