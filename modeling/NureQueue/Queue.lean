import Mathlib.Logic.Function.Basic
import NureQueue.Index

/-! # The queue, its calls and the system of threads

A call is a program of single accesses: each constructor of `Pc` is the point just
before one atomic access or one access to a slot value, with the locals that are
live there. The fences and the backoff touch no memory and have no point of their own.
-/

namespace NureQueue

universe u v

/-- None stands for memory without a live value: never written, or moved out of. -/
abbrev MaybeUninit (α : Type u) := Option α

structure Slot (c : Config) (α : Type u) where
  stamp : c.Index
  value : MaybeUninit α

structure Queue (c : Config) (α : Type u) where
  head : c.Index
  tail : c.Index
  buffer : ℕ → Slot c α

namespace Queue

variable {c : Config} {α : Type u}

def new (c : Config) (α : Type u) : Queue c α where
  head := 0
  tail := 0
  buffer i := ⟨BitVec.ofNat c.w i, none⟩

def setValue (q : Queue c α) (i : ℕ) (value : MaybeUninit α) : Queue c α :=
  { q with buffer := Function.update q.buffer i { q.buffer i with value := value } }

def stampStore (q : Queue c α) (i : ℕ) (stamp : c.Index) : Queue c α :=
  { q with buffer := Function.update q.buffer i { q.buffer i with stamp := stamp } }

@[simp] theorem setValue_head (q : Queue c α) (i : ℕ) (v : MaybeUninit α) :
    (q.setValue i v).head = q.head := rfl

@[simp] theorem setValue_tail (q : Queue c α) (i : ℕ) (v : MaybeUninit α) :
    (q.setValue i v).tail = q.tail := rfl

@[simp] theorem stampStore_head (q : Queue c α) (i : ℕ) (x : c.Index) :
    (q.stampStore i x).head = q.head := rfl

@[simp] theorem stampStore_tail (q : Queue c α) (i : ℕ) (x : c.Index) :
    (q.stampStore i x).tail = q.tail := rfl

@[simp] theorem setValue_stamp (q : Queue c α) (i j : ℕ) (v : MaybeUninit α) :
    ((q.setValue i v).buffer j).stamp = (q.buffer j).stamp := by
  obtain rfl | h := eq_or_ne j i
  · simp [setValue]
  · simp [setValue, h]

@[simp] theorem stampStore_value (q : Queue c α) (i j : ℕ) (x : c.Index) :
    ((q.stampStore i x).buffer j).value = (q.buffer j).value := by
  obtain rfl | h := eq_or_ne j i
  · simp [stampStore]
  · simp [stampStore, h]

@[simp] theorem setValue_value_self (q : Queue c α) (i : ℕ) (v : MaybeUninit α) :
    ((q.setValue i v).buffer i).value = v := by
  simp [setValue]

theorem setValue_value_of_ne (q : Queue c α) {i j : ℕ} (v : MaybeUninit α) (h : j ≠ i) :
    ((q.setValue i v).buffer j).value = (q.buffer j).value := by
  simp [setValue, h]

@[simp] theorem stampStore_stamp_self (q : Queue c α) (i : ℕ) (x : c.Index) :
    ((q.stampStore i x).buffer i).stamp = x := by
  simp [stampStore]

theorem stampStore_stamp_of_ne (q : Queue c α) {i j : ℕ} (x : c.Index) (h : j ≠ i) :
    ((q.stampStore i x).buffer j).stamp = (q.buffer j).stamp := by
  simp [stampStore, h]

end Queue

/-- The case split on head and tail that `len` and `Drop::drop` both make. -/
def Config.lenOf (c : Config) (head tail : c.Index) : ℕ :=
  let hix := c.index head
  let tix := c.index tail
  if hix < tix then tix - hix
  else if hix > tix then c.N - hix + tix
  else if tail = head then 0
  else c.N

namespace Queue

variable {c : Config} {α : Type u}

/-- The slots that the loop of `Drop::drop` visits, in order. -/
def dropIndices (q : Queue c α) : List ℕ :=
  let hix := c.index q.head
  (List.range (c.lenOf q.head q.tail)).map fun i =>
    if hix + i < c.N then hix + i else hix + i - c.N

def dropSlots (q : Queue c α) : List ℕ → List (MaybeUninit α) × Queue c α
  | [] => ([], q)
  | i :: rest =>
    let (values, q') := (q.setValue i none).dropSlots rest
    ((q.buffer i).value :: values, q')

/-- `Drop::drop` for a type that needs drop: the values dropped, in order. -/
def drop (q : Queue c α) : List (MaybeUninit α) × Queue c α :=
  q.dropSlots q.dropIndices

end Queue

inductive Op (α : Type u) where
  | push (value : α)
  | forcePush (value : α)
  | pop
  | isEmpty
  | isFull
  | len
  deriving DecidableEq

/-- A result of `pop` or `force_push` is a value read by `assume_init`; it is kept as the
memory content, so that reading dead memory would show as none. -/
inductive Ret (α : Type u) where
  | pushOk
  | pushErr (value : α)
  | forcePush (old : Option (MaybeUninit α))
  | pop (msg : Option (MaybeUninit α))
  | isEmpty (b : Bool)
  | isFull (b : Bool)
  | len (n : ℕ)
  deriving DecidableEq

inductive Closure where
  | push
  | forcePush
  deriving DecidableEq

def Closure.op {α : Type u} (value : α) : Closure → Op α
  | .push => .push value
  | .forcePush => .forcePush value

inductive Pc (c : Config) (α : Type u) where
  | idle
  | pushLoad (f : Closure) (value : α)
  | pushStamp (f : Closure) (value : α) (tail : c.Index)
  | pushCas (f : Closure) (value : α) (tail : c.Index)
  | pushWrite (f : Closure) (value : α) (tail : c.Index)
  | pushPublish (f : Closure) (tail : c.Index)
  | fullLoad (value : α) (tail : c.Index)
  | forceCas (value : α) (tail : c.Index)
  | forceStore (value : α) (tail : c.Index)
  | forceReplace (value : α) (tail : c.Index)
  | forcePublish (tail : c.Index) (old : MaybeUninit α)
  | popLoad
  | popStamp (head : c.Index)
  | popCas (head : c.Index)
  | popRead (head : c.Index)
  | popPublish (head : c.Index) (msg : MaybeUninit α)
  | popTail (head : c.Index)
  | emptyHead
  | emptyTail (head : c.Index)
  | fullTail
  | fullHead (tail : c.Index)
  | lenTail
  | lenHead (tail : c.Index)
  | lenCheck (tail head : c.Index)
  | done (r : Ret α)
  deriving DecidableEq

inductive Access where
  | loadHead
  | loadTail
  | loadStamp (i : ℕ)
  | casHead (won : Bool)
  | casTail (won : Bool)
  | storeTail
  | writeValue (i : ℕ)
  | readValue (i : ℕ)
  | replaceValue (i : ℕ)
  | storeStamp (i : ℕ)
  deriving DecidableEq

def Op.start {c : Config} {α : Type u} : Op α → Pc c α
  | .push value => .pushLoad .push value
  | .forcePush value => .pushLoad .forcePush value
  | .pop => .popLoad
  | .isEmpty => .emptyHead
  | .isFull => .fullTail
  | .len => .lenTail

/-- What `push` and `force_push` make of an `Ok(())` of `push_or_else`. -/
def Closure.ok {α : Type u} : Closure → Ret α
  | .push => .pushOk
  | .forcePush => .forcePush none

def Closure.enter {c : Config} {α : Type u} (value : α) (tail : c.Index) : Closure → Pc c α
  | .push => .fullLoad value tail
  | .forcePush => .forceCas value tail

/-- One access. A `compare_exchange_weak` also fails when it is told to do so. -/
def Pc.step {c : Config} {α : Type u} (q : Queue c α) (spurious : Bool) :
    Pc c α → Option (Access × Queue c α × Pc c α)
  | .idle => none
  | .done _ => none
  -- push_or_else
  | .pushLoad f value => some (.loadTail, q, .pushStamp f value q.tail)
  | .pushStamp f value tail =>
    let stamp := (q.buffer (c.index tail)).stamp
    some (.loadStamp (c.index tail), q,
      if tail = stamp then .pushCas f value tail
      else if stamp + c.oneLap = tail + 1 then f.enter value tail
      else .pushLoad f value)
  | .pushCas f value tail =>
    if q.tail = tail ∧ spurious = false then
      some (.casTail true, { q with tail := c.next tail }, .pushWrite f value tail)
    else some (.casTail false, q, .pushStamp f value q.tail)
  | .pushWrite f value tail =>
    some (.writeValue (c.index tail), q.setValue (c.index tail) (some value), .pushPublish f tail)
  | .pushPublish f tail =>
    some (.storeStamp (c.index tail), q.stampStore (c.index tail) (tail + 1), .done f.ok)
  -- the closure of push
  | .fullLoad value tail =>
    some (.loadHead, q,
      if q.head + c.oneLap = tail then .done (.pushErr value) else .pushLoad .push value)
  -- the closure of force_push
  | .forceCas value tail =>
    if q.head = tail - c.oneLap ∧ spurious = false then
      some (.casHead true, { q with head := c.next tail - c.oneLap }, .forceStore value tail)
    else some (.casHead false, q, .pushLoad .forcePush value)
  | .forceStore value tail =>
    some (.storeTail, { q with tail := c.next tail }, .forceReplace value tail)
  | .forceReplace value tail =>
    some (.replaceValue (c.index tail), q.setValue (c.index tail) (some value),
      .forcePublish tail (q.buffer (c.index tail)).value)
  | .forcePublish tail old =>
    some (.storeStamp (c.index tail), q.stampStore (c.index tail) (tail + 1),
      .done (.forcePush (some old)))
  -- pop
  | .popLoad => some (.loadHead, q, .popStamp q.head)
  | .popStamp head =>
    let stamp := (q.buffer (c.index head)).stamp
    some (.loadStamp (c.index head), q,
      if head + 1 = stamp then .popCas head
      else if stamp = head then .popTail head
      else .popLoad)
  | .popCas head =>
    if q.head = head ∧ spurious = false then
      some (.casHead true, { q with head := c.next head }, .popRead head)
    else some (.casHead false, q, .popStamp q.head)
  | .popRead head =>
    some (.readValue (c.index head), q.setValue (c.index head) none,
      .popPublish head (q.buffer (c.index head)).value)
  | .popPublish head msg =>
    some (.storeStamp (c.index head), q.stampStore (c.index head) (head + c.oneLap),
      .done (.pop (some msg)))
  | .popTail head =>
    some (.loadTail, q, if q.tail = head then .done (.pop none) else .popLoad)
  -- the observers
  | .emptyHead => some (.loadHead, q, .emptyTail q.head)
  | .emptyTail head => some (.loadTail, q, .done (.isEmpty (q.tail = head)))
  | .fullTail => some (.loadTail, q, .fullHead q.tail)
  | .fullHead tail => some (.loadHead, q, .done (.isFull (q.head + c.oneLap = tail)))
  | .lenTail => some (.loadTail, q, .lenHead q.tail)
  | .lenHead tail => some (.loadHead, q, .lenCheck tail q.head)
  | .lenCheck tail head =>
    some (.loadTail, q, if q.tail = tail then .done (.len (c.lenOf head tail)) else .lenTail)

/-- The threads of a run on fixed inputs are the two of `Fin 2`. -/
instance twoThreads : NeZero 2 := ⟨by decide⟩

structure System (c : Config) (ι : Type v) (α : Type u) where
  queue : Queue c α
  pc : ι → Pc c α

inductive Label (ι : Type v) (α : Type u) where
  | call (t : ι) (op : Op α)
  | step (t : ι) (spurious : Bool)
  | ret (t : ι) (r : Ret α)
  deriving DecidableEq

namespace System

variable {c : Config} {ι : Type v} {α : Type u}

def new (c : Config) (ι : Type v) (α : Type u) : System c ι α where
  queue := Queue.new c α
  pc _ := .idle

/-- Any idle thread may call any operation, any thread in a call may make its next
access, and any thread whose call is finished may return. -/
def step [DecidableEq ι] [DecidableEq α] (s : System c ι α) :
    Label ι α → Option (System c ι α)
  | .call t op =>
    if s.pc t = .idle then some { s with pc := Function.update s.pc t op.start } else none
  | .step t spurious =>
    ((s.pc t).step s.queue spurious).map fun (_, q, p) => ⟨q, Function.update s.pc t p⟩
  | .ret t r =>
    if s.pc t = .done r then some { s with pc := Function.update s.pc t .idle } else none

end System

end NureQueue
