import Mathlib.Data.List.Nodup
import NureQueue.Lib.Linearizability

/-! # What the clients of a linearizable FIFO queue see

An object is a FIFO queue if each operation adds at most one value behind those that are
stored and removes at most the first of them. The values removed in a legal order are then
a prefix of the values added. A history in which no value is offered twice shows this to the
threads: values are handed out in the order of their additions, once, after they were
offered, and the queue is not found empty while a value stays in it.
-/

namespace Linearizability

universe u v w x

variable {ι : Type u} {Op : Type v} {Ret : Type w} {α : Type x}

/-- How operations and results show the values that go in and out of a queue. -/
structure Interface (Op : Type v) (Ret : Type w) (α : Type x) where
  offers : Op → Option α
  accepts : Ret → Bool
  takes : Ret → Option α
  empty : Ret → Bool

namespace Interface

variable (I : Interface Op Ret α)

def puts (op : Op) (r : Ret) : Option α :=
  if I.accepts r then I.offers op else none

def added (order : List (Entry Op Ret)) : List α :=
  order.filterMap fun e => I.puts e.op e.ret

def removed (order : List (Entry Op Ret)) : List α :=
  order.filterMap fun e => I.takes e.ret

def offered (h : History ι Op Ret) : List α :=
  h.filterMap fun
    | .call _ op => I.offers op
    | .ret _ _ => none

/-- The call at position i, of thread t, offers x. -/
def Offered (h : History ι Op Ret) (t : ι) (i : ℕ) (x : α) : Prop :=
  ∃ op, h[i]? = some (.call t op) ∧ I.offers op = some x

/-- The call at position i has returned with x accepted. -/
def Put (h : History ι Op Ret) (i : ℕ) (x : α) : Prop :=
  ∃ t op j r, h[i]? = some (.call t op) ∧ Returned h i j r ∧ I.puts op r = some x

/-- What the call at position i takes out in a sequential order of the calls. -/
def takenIn (order : List (Entry Op Ret)) (i : ℕ) : Option α :=
  (order.find? fun e => e.call = i).bind fun e => I.takes e.ret

structure IsFifo (O : Object Op Ret (List α)) : Prop where
  init : O.init = []
  apply : ∀ xs op, xs ++ (I.puts op (O.apply xs op).2).toList =
    (I.takes (O.apply xs op).2).toList ++ (O.apply xs op).1
  empty : ∀ xs op, I.empty (O.apply xs op).2 = true → xs = []

end Interface

section Orders

variable {σ : Type x} (O : Object Op Ret σ)

theorem Object.legal_append (s : σ) (first second : List (Op × Ret)) :
    O.Legal s (first ++ second) ↔ O.Legal s first ∧ O.Legal (O.after s first) second := by
  induction first generalizing s with
  | nil => exact (iff_of_eq (true_and _)).symm
  | cons e first ih =>
    obtain ⟨op, r⟩ := e
    rw [List.cons_append, Object.Legal, Object.Legal, ih, and_assoc]
    rfl

end Orders

variable {I : Interface Op Ret α} {O : Object Op Ret (List α)}

/-- What was stored and what is added, in order, is what is removed and what is left. -/
theorem Interface.IsFifo.balance (hf : I.IsFifo O) {xs : List α} {order : List (Entry Op Ret)}
    (hLegal : O.Legal xs (order.map fun e => (e.op, e.ret))) :
    xs ++ I.added order = I.removed order ++ O.after xs (order.map fun e => (e.op, e.ret)) := by
  induction order generalizing xs with
  | nil => exact List.append_nil xs
  | cons e order ih =>
    obtain ⟨hRet, hRest⟩ := hLegal
    have hApply := hf.apply xs e.op
    have hTail := ih hRest
    rw [hRet] at hApply
    calc xs ++ I.added (e :: order)
        = (xs ++ (I.puts e.op e.ret).toList) ++ I.added order := by
          rw [List.append_assoc]
          congr 1
          rw [Interface.added, List.filterMap_cons]
          cases I.puts e.op e.ret <;> rfl
      _ = (I.takes e.ret).toList ++ ((O.apply xs e.op).1 ++ I.added order) := by
          rw [hApply, List.append_assoc]
      _ = (I.takes e.ret).toList ++ I.removed order ++
            O.after (O.apply xs e.op).1 (order.map fun e => (e.op, e.ret)) := by
          rw [hTail, List.append_assoc]
      _ = I.removed (e :: order) ++ O.after xs ((e :: order).map fun e => (e.op, e.ret)) := by
          congr 1
          rw [Interface.removed, Interface.removed, List.filterMap_cons]
          cases I.takes e.ret <;> rfl

theorem sublist_pair {β : Type*} {x y : β} {l : List β} (hx : x ∈ l) (hy : y ∈ l) (hne : x ≠ y) :
    [x, y].Sublist l ∨ [y, x].Sublist l := by
  induction l with
  | nil => cases hx
  | cons z l ih =>
    obtain rfl | hxl := List.mem_cons.mp hx
    · obtain rfl | hyl := List.mem_cons.mp hy
      · exact absurd rfl hne
      · exact .inl ((List.singleton_sublist.mpr hyl).cons_cons x)
    · obtain rfl | hyl := List.mem_cons.mp hy
      · exact .inr ((List.singleton_sublist.mpr hxl).cons_cons y)
      · exact (ih hxl hyl).imp (·.cons z) (·.cons z)

theorem not_sublist_swap {x y : α} {l : List α} (hNodup : l.Nodup) (hxy : [x, y].Sublist l) :
    ¬ [y, x].Sublist l := by
  induction l with
  | nil => exact fun hyx => by cases hyx
  | cons z l ih =>
    obtain ⟨hz, hl⟩ := List.nodup_cons.mp hNodup
    intro hyx
    cases hxy with
    | cons _ hxy =>
      cases hyx with
      | cons _ hyx => exact ih hl hxy hyx
      | cons_cons => exact hz (hxy.subset (List.mem_cons_of_mem _ List.mem_cons_self))
    | cons_cons _ hy =>
      cases hyx with
      | cons _ hyx => exact hz (hyx.subset (List.mem_cons_of_mem _ List.mem_cons_self))
      | cons_cons => exact hz (List.singleton_sublist.mp hy)

theorem filterMap_pair {β : Type*} {f : β → Option α} {a b : β} {x y : α} {l : List β}
    (hPair : [a, b].Sublist l) (ha : f a = some x) (hb : f b = some y) :
    [x, y].Sublist (l.filterMap f) := by
  simpa [ha, hb] using hPair.filterMap f

theorem Precedes.irrefl {h : History ι Op Ret} {i : ℕ} : ¬ Precedes h i i := by
  rintro ⟨j, r, ⟨t, op, -, -, hij, -⟩, hj⟩
  omega

section Linearization

variable {σ : Type x} {P : Object Op Ret σ}
variable {h : History ι Op Ret} {order : List (Entry Op Ret)}

theorem Linearizes.entry_eq (hl : Linearizes P h order) {x y : Entry Op Ret} (hx : x ∈ order)
    (hy : y ∈ order) (hCall : x.call = y.call) : x = y :=
  List.inj_on_of_nodup_map hl.nodup hx hy hCall

theorem Linearizes.entry (hl : Linearizes P h order) {t : ι} {i j : ℕ} {op : Op} {r : Ret}
    (hCall : h[i]? = some (.call t op)) (hReturned : Returned h i j r) : ⟨i, op, r⟩ ∈ order := by
  obtain ⟨op', hEntry⟩ := hl.returned i j r hReturned
  obtain ⟨u, hCalled⟩ := hl.called _ hEntry
  cases hCall.symm.trans hCalled
  exact hEntry

theorem Linearizes.not_precedes (hl : Linearizes P h order) {x y : Entry Op Ret}
    (hxy : [x, y].Sublist order) : ¬ Precedes h y.call x.call :=
  List.pairwise_iff_forall_sublist.mp hl.realTime hxy

theorem Linearizes.sublist_of_precedes (hl : Linearizes P h order) {x y : Entry Op Ret}
    (hx : x ∈ order) (hy : y ∈ order) (hPrecedes : Precedes h x.call y.call) :
    [x, y].Sublist order := by
  have hne : x ≠ y := by
    rintro rfl
    exact Precedes.irrefl hPrecedes
  obtain hxy | hyx := sublist_pair hx hy hne
  · exact hxy
  · exact absurd hPrecedes (hl.not_precedes hyx)

end Linearization

theorem eq_of_nodup_filterMap {β : Type*} {f : β → Option α} {l : List β}
    (hNodup : (l.filterMap f).Nodup) {i j : ℕ} {a b : β} {x : α} (ha : l[i]? = some a)
    (hb : l[j]? = some b) (hfa : f a = some x) (hfb : f b = some x) : i = j := by
  obtain ⟨hi, rfl⟩ := List.getElem?_eq_some_iff.mp ha
  obtain ⟨hj, rfl⟩ := List.getElem?_eq_some_iff.mp hb
  have hPairs := List.pairwise_iff_getElem.mp (List.pairwise_filterMap.mp hNodup)
  obtain hlt | heq | hgt := Nat.lt_trichotomy i j
  · exact absurd rfl (hPairs i j hi hj hlt x hfa x hfb)
  · exact heq
  · exact absurd rfl (hPairs j i hj hi hgt x hfb x hfa)

theorem Interface.offers_of_puts {op : Op} {r : Ret} {x : α} (h : I.puts op r = some x) :
    I.offers op = some x := by
  rw [puts] at h
  split at h
  · exact h
  · cases h

section Queue

variable {h : History ι Op Ret} {order : List (Entry Op Ret)} {x y : α}

section Split

variable {before after : List (Entry Op Ret)}

theorem Linearizes.balance (hl : Linearizes O h order) (hf : I.IsFifo O)
    (hOrder : order = before ++ after) : I.added before =
      I.removed before ++ O.after O.init (before.map fun e => (e.op, e.ret)) := by
  have hLegal := hl.legal
  rw [hOrder, List.map_append, O.legal_append] at hLegal
  rw [← hf.balance hLegal.1, hf.init, List.nil_append]

theorem Linearizes.removed_prefix (hl : Linearizes O h order) (hf : I.IsFifo O)
    (hOrder : order = before ++ after) : I.removed before <+: I.added before :=
  ⟨_, (hl.balance hf hOrder).symm⟩

end Split

variable (hl : Linearizes O h order) (hf : I.IsFifo O) (hOnce : (I.offered h).Nodup)

include hl hOnce

theorem Linearizes.puts_unique {e e' : Entry Op Ret} (he : e ∈ order) (he' : e' ∈ order)
    (hPuts : I.puts e.op e.ret = some x) (hPuts' : I.puts e'.op e'.ret = some x) : e = e' := by
  obtain ⟨t, hCall⟩ := hl.called e he
  obtain ⟨t', hCall'⟩ := hl.called e' he'
  exact hl.entry_eq he he' (eq_of_nodup_filterMap hOnce hCall hCall' (I.offers_of_puts hPuts)
    (I.offers_of_puts hPuts'))

theorem Linearizes.added_nodup : (I.added order).Nodup := by
  refine List.pairwise_filterMap.mpr ?_
  refine (List.Nodup.of_map _ hl.nodup).imp_of_mem fun he he' hne b hb b' hb' hSame => ?_
  subst hSame
  exact hne (hl.puts_unique hOnce he he' hb hb')

include hf

theorem Linearizes.removed_nodup : (I.removed order).Nodup :=
  (hl.added_nodup hOnce).sublist
    (hl.removed_prefix hf (List.append_nil order).symm).sublist

theorem Linearizes.takes_unique {e e' : Entry Op Ret} (he : e ∈ order) (he' : e' ∈ order)
    (hTakes : I.takes e.ret = some x) (hTakes' : I.takes e'.ret = some x) : e = e' := by
  by_contra hne
  have hTwice : [x, x].Sublist (I.removed order) := by
    obtain hPair | hPair := sublist_pair he he' hne
    · exact filterMap_pair hPair hTakes hTakes'
    · exact filterMap_pair hPair hTakes' hTakes
  exact List.nodup_iff_sublist.mp (hl.removed_nodup hf hOnce) x hTwice

/-- What is added first is removed first. -/
theorem Linearizes.takes_in_order {p p' e e' : Entry Op Ret} (hp : [p, p'].Sublist order)
    (hPuts : I.puts p.op p.ret = some x) (hPuts' : I.puts p'.op p'.ret = some y)
    (hTakes : I.takes e.ret = some x) (hTakes' : I.takes e'.ret = some y) :
    ¬ [e', e].Sublist order := by
  intro he
  have hAdded : [x, y].Sublist (I.added order) := filterMap_pair hp hPuts hPuts'
  have hRemoved : [y, x].Sublist (I.removed order) := filterMap_pair he hTakes' hTakes
  have hPrefix := hl.removed_prefix hf (List.append_nil order).symm
  exact not_sublist_swap (hl.added_nodup hOnce) hAdded (hRemoved.trans hPrefix.sublist)

end Queue

/-- What a history of a FIFO queue shows if no value is offered twice. The value that each call
takes out is the one in its result; a call in flight may have taken one that it has not handed
out yet. -/
structure FifoOrder (I : Interface Op Ret α) (O : Object Op Ret (List α)) (h : History ι Op Ret)
    (taken : ℕ → Option α) : Prop where
  returned : ∀ {j k r}, Returned h j k r → taken j = I.takes r
  called : ∀ {j x}, taken j = some x →
    ∃ t op xs, h[j]? = some (.call t op) ∧ I.takes (O.apply xs op).2 = some x
  /-- A value is not taken after one whose offer began when the call that offered it had
  returned. -/
  inOrder : ∀ {t t' i i' j j' x y}, I.Offered h t i x → I.Offered h t' i' y → Precedes h i i' →
    taken j = some x → taken j' = some y → ¬ Precedes h j' j
  /-- One thread takes the values of another in the order in which that thread offered them. -/
  perThread : ∀ {t u i i' j j' op op' x y}, I.Offered h t i x → I.Offered h t i' y → i < i' →
    h[j]? = some (.call u op) → taken j = some x →
    h[j']? = some (.call u op') → taken j' = some y → j < j'
  once : ∀ {j j' x}, taken j = some x → taken j' = some x → j = j'
  offered : ∀ {j x}, taken j = some x → ∃ t i, I.Offered h t i x ∧ ¬ Precedes h j i
  /-- The queue is found empty only if each value whose addition had returned has been taken
  by a call that began before the answer. -/
  empty : ∀ {i j k x r}, I.Put h i x → Returned h j k r → I.empty r = true → Precedes h i j →
    ∃ j', taken j' = some x ∧ ¬ Precedes h j j'

section Main

variable {h : History ι Op Ret} {order before after : List (Entry Op Ret)} {e p : Entry Op Ret}
variable {x : α}

theorem Linearizes.not_precedes_of_split (hl : Linearizes O h order)
    (hOrder : order = before ++ e :: after) (hp : p ∈ before) : ¬ Precedes h e.call p.call := by
  apply hl.not_precedes
  rw [hOrder]
  exact (List.singleton_sublist.mpr hp).append
    (List.singleton_sublist.mpr List.mem_cons_self)

theorem Linearizes.mem_of_precedes (hl : Linearizes O h order)
    (hOrder : order = before ++ e :: after) (hp : p ∈ order)
    (hPrecedes : Precedes h p.call e.call) : p ∈ before := by
  have hSplit := hp
  rw [hOrder] at hSplit
  obtain hBefore | hAfter := List.mem_append.mp hSplit
  · exact hBefore
  · obtain rfl | hAfter := List.mem_cons.mp hAfter
    · exact absurd hPrecedes Precedes.irrefl
    · refine absurd hPrecedes (hl.not_precedes ?_)
      rw [hOrder]
      exact ((List.singleton_sublist.mpr hAfter).cons_cons e).trans
        (List.sublist_append_right before _)

theorem Linearizes.ret_eq (hl : Linearizes O h order) (hOrder : order = before ++ e :: after) :
    (O.apply (O.after O.init (before.map fun e => (e.op, e.ret))) e.op).2 = e.ret := by
  have hLegal := hl.legal
  rw [hOrder, List.map_append, O.legal_append] at hLegal
  exact hLegal.2.1

/-- A value that is removed was added by the same call or before. -/
theorem Linearizes.exists_put (hl : Linearizes O h order) (hf : I.IsFifo O) (he : e ∈ order)
    (hTakes : I.takes e.ret = some x) :
    ∃ p ∈ order, I.puts p.op p.ret = some x ∧ ¬ Precedes h e.call p.call := by
  obtain ⟨before, after, hOrder⟩ := List.append_of_mem he
  have hPrefix := hl.removed_prefix hf
    (show order = (before ++ [e]) ++ after by rw [hOrder, List.append_cons])
  have hRemoved : x ∈ I.removed (before ++ [e]) :=
    List.mem_filterMap.mpr ⟨e, by simp, hTakes⟩
  obtain ⟨p, hp, hPuts⟩ := List.mem_filterMap.mp (hPrefix.subset hRemoved)
  obtain hBefore | hSame := List.mem_append.mp hp
  · exact ⟨p, hOrder ▸ List.mem_append_left _ hBefore, hPuts,
      hl.not_precedes_of_split hOrder hBefore⟩
  · obtain rfl := List.mem_singleton.mp hSame
    exact ⟨p, he, hPuts, Precedes.irrefl⟩

/-- A value added before the queue is found empty has been removed before. -/
theorem Linearizes.exists_take (hl : Linearizes O h order) (hf : I.IsFifo O) (he : e ∈ order)
    (hEmpty : I.empty e.ret = true) (hp : p ∈ order) (hPuts : I.puts p.op p.ret = some x)
    (hPrecedes : Precedes h p.call e.call) :
    ∃ e' ∈ order, I.takes e'.ret = some x ∧ ¬ Precedes h e.call e'.call := by
  obtain ⟨before, after, hOrder⟩ := List.append_of_mem he
  have hAdded : x ∈ I.added before :=
    List.mem_filterMap.mpr ⟨p, hl.mem_of_precedes hOrder hp hPrecedes, hPuts⟩
  have hNothing : O.after O.init (before.map fun e => (e.op, e.ret)) = [] := by
    apply hf.empty _ e.op
    rwa [hl.ret_eq hOrder]
  rw [hl.balance hf hOrder, hNothing, List.append_nil] at hAdded
  obtain ⟨e', he', hTakes⟩ := List.mem_filterMap.mp hAdded
  exact ⟨e', hOrder ▸ List.mem_append_left _ he', hTakes, hl.not_precedes_of_split hOrder he'⟩

theorem Interface.exists_of_takenIn {j : ℕ} (h : I.takenIn order j = some x) :
    ∃ e ∈ order, e.call = j ∧ I.takes e.ret = some x := by
  obtain ⟨e, hFind, hTakes⟩ := Option.bind_eq_some_iff.mp h
  have hCall := List.find?_some hFind
  exact ⟨e, List.mem_of_find?_eq_some hFind, of_decide_eq_true hCall, hTakes⟩

theorem Linearizes.takenIn_entry (hl : Linearizes O h order) (he : e ∈ order) :
    I.takenIn order e.call = I.takes e.ret := by
  have hFound : (order.find? fun e' => e'.call = e.call).isSome :=
    List.find?_isSome.mpr ⟨e, he, decide_eq_true rfl⟩
  obtain ⟨e', hFind⟩ := Option.isSome_iff_exists.mp hFound
  have hCall := List.find?_some hFind
  have hSame : e' = e :=
    hl.entry_eq (List.mem_of_find?_eq_some hFind) he (of_decide_eq_true hCall)
  rw [Interface.takenIn, hFind, Option.bind_some, hSame]

theorem Linearizes.put_of_offered (hl : Linearizes O h order) (hf : I.IsFifo O)
    (hOnce : (I.offered h).Nodup) {t : ι} {i : ℕ} (hOffered : I.Offered h t i x) (he : e ∈ order)
    (hTakes : I.takes e.ret = some x) :
    ∃ p ∈ order, p.call = i ∧ I.puts p.op p.ret = some x := by
  obtain ⟨op, hCall, hOffers⟩ := hOffered
  obtain ⟨p, hp, hPuts, -⟩ := hl.exists_put hf he hTakes
  obtain ⟨u, hCall'⟩ := hl.called p hp
  exact ⟨p, hp, eq_of_nodup_filterMap hOnce hCall' hCall (I.offers_of_puts hPuts) hOffers, hPuts⟩

theorem Linearizes.not_precedes_of_offered (hl : Linearizes O h order) (hf : I.IsFifo O)
    (hOnce : (I.offered h).Nodup) {t t' : ι} {i i' : ℕ} {y : α} {e' : Entry Op Ret}
    (hOffered : I.Offered h t i x) (hOffered' : I.Offered h t' i' y) (hFirst : Precedes h i i')
    (he : e ∈ order) (hTakes : I.takes e.ret = some x) (he' : e' ∈ order)
    (hTakes' : I.takes e'.ret = some y) : ¬ Precedes h e'.call e.call := by
  intro hBack
  obtain ⟨p, hp, rfl, hPuts⟩ := hl.put_of_offered hf hOnce hOffered he hTakes
  obtain ⟨p', hp', rfl, hPuts'⟩ := hl.put_of_offered hf hOnce hOffered' he' hTakes'
  exact hl.takes_in_order hf hOnce (hl.sublist_of_precedes hp hp' hFirst) hPuts hPuts' hTakes
    hTakes' (hl.sublist_of_precedes he' he hBack)

theorem Linearizes.fifoOrder (hl : Linearizes O h order) (hf : I.IsFifo O)
    (hOnce : (I.offered h).Nodup) (hSequenced : Sequenced h) :
    FifoOrder I O h (I.takenIn order) := by
  constructor
  · intro j k r hReturned
    obtain ⟨op, he⟩ := hl.returned j k r hReturned
    exact hl.takenIn_entry he
  · intro j x hTaken
    obtain ⟨e, he, rfl, hTakes⟩ := I.exists_of_takenIn hTaken
    obtain ⟨t, hCall⟩ := hl.called e he
    obtain ⟨before, after, hOrder⟩ := List.append_of_mem he
    exact ⟨t, e.op, _, hCall, (congrArg I.takes (hl.ret_eq hOrder)).trans hTakes⟩
  · intro t t' i i' j j' x y hOffered hOffered' hFirst hTaken hTaken'
    obtain ⟨e, he, rfl, hTakes⟩ := I.exists_of_takenIn hTaken
    obtain ⟨e', he', rfl, hTakes'⟩ := I.exists_of_takenIn hTaken'
    exact hl.not_precedes_of_offered hf hOnce hOffered hOffered' hFirst he hTakes he' hTakes'
  · intro t u i i' j j' op op' x y hOffered hOffered' hLt hCall hTaken hCall' hTaken'
    obtain ⟨e, he, rfl, hTakes⟩ := I.exists_of_takenIn hTaken
    obtain ⟨e', he', rfl, hTakes'⟩ := I.exists_of_takenIn hTaken'
    have hFirst : Precedes h i i' := by
      obtain ⟨a, ha, -⟩ := id hOffered
      obtain ⟨b, hb, -⟩ := id hOffered'
      exact hSequenced ha hb hLt
    obtain hlt | heq | hgt := Nat.lt_trichotomy e.call e'.call
    · exact hlt
    · obtain ⟨p, hp, rfl, hPuts⟩ := hl.put_of_offered hf hOnce hOffered he hTakes
      obtain ⟨p', hp', rfl, hPuts'⟩ := hl.put_of_offered hf hOnce hOffered' he' hTakes'
      cases hl.entry_eq he he' heq
      cases hTakes.symm.trans hTakes'
      cases hl.puts_unique hOnce hp hp' hPuts hPuts'
      exact absurd hLt (Nat.lt_irrefl _)
    · exact absurd (hSequenced hCall' hCall hgt)
        (hl.not_precedes_of_offered hf hOnce hOffered hOffered' hFirst he hTakes he' hTakes')
  · intro j j' x hTaken hTaken'
    obtain ⟨e, he, rfl, hTakes⟩ := I.exists_of_takenIn hTaken
    obtain ⟨e', he', rfl, hTakes'⟩ := I.exists_of_takenIn hTaken'
    rw [hl.takes_unique hf hOnce he he' hTakes hTakes']
  · intro j x hTaken
    obtain ⟨e, he, rfl, hTakes⟩ := I.exists_of_takenIn hTaken
    obtain ⟨p, hp, hPuts, hNot⟩ := hl.exists_put hf he hTakes
    obtain ⟨t, hCall⟩ := hl.called p hp
    exact ⟨t, p.call, ⟨p.op, hCall, I.offers_of_puts hPuts⟩, hNot⟩
  · rintro i j k x r ⟨t, op, l, r', hCall, hRet, hPuts⟩ hAnswer hEmpty hPrecedes
    obtain ⟨op', he⟩ := hl.returned j k r hAnswer
    obtain ⟨e, he, hTakes, hNot⟩ := hl.exists_take hf he hEmpty (hl.entry hCall hRet) hPuts hPrecedes
    exact ⟨e.call, (hl.takenIn_entry he).trans hTakes, hNot⟩

end Main

end Linearizability
