import NureQueue.Queue

/-! # The control flow of the calls

What follows an access in the text of a call, whatever the memory holds. A fact about the
points of a call alone is proved along these edges, and one about the point of a thread along
what a label does to that thread.
-/

namespace NureQueue

universe u v

variable {c : Config} {ι : Type v} {α : Type u}

namespace Pc

inductive Edge : Pc c α → Access → Pc c α → Prop where
  | pushLoad f value tail : Edge (.pushLoad f value) .loadTail (.pushStamp f value tail)
  | pushFree f value tail i : Edge (.pushStamp f value tail) (.loadStamp i) (.pushCas f value tail)
  | pushEnter value tail i :
    Edge (.pushStamp .push value tail) (.loadStamp i) (.fullLoad value tail)
  | forceEnter value tail i :
    Edge (.pushStamp .forcePush value tail) (.loadStamp i) (.forceCas value tail)
  | pushAgain f value tail i : Edge (.pushStamp f value tail) (.loadStamp i) (.pushLoad f value)
  | pushWon f value tail : Edge (.pushCas f value tail) (.casTail true) (.pushWrite f value tail)
  | pushLost f value tail tail' :
    Edge (.pushCas f value tail) (.casTail false) (.pushStamp f value tail')
  | pushWrite f value tail i : Edge (.pushWrite f value tail) (.writeValue i) (.pushPublish f tail)
  | pushOk tail i : Edge (.pushPublish .push tail) (.storeStamp i) (.done .pushOk)
  | forceOk tail i : Edge (.pushPublish .forcePush tail) (.storeStamp i) (.done (.forcePush none))
  | full value tail : Edge (.fullLoad value tail) .loadHead (.done (.pushErr value))
  | fullAgain value tail : Edge (.fullLoad value tail) .loadHead (.pushLoad .push value)
  | forceWon value tail : Edge (.forceCas value tail) (.casHead true) (.forceStore value tail)
  | forceLost value tail :
    Edge (.forceCas value tail) (.casHead false) (.pushLoad .forcePush value)
  | forceStore value tail : Edge (.forceStore value tail) .storeTail (.forceReplace value tail)
  | forceReplace value tail i old :
    Edge (.forceReplace value tail) (.replaceValue i) (.forcePublish tail old)
  | forcePublish tail old i :
    Edge (.forcePublish tail old) (.storeStamp i) (.done (.forcePush (some old)))
  | popLoad head : Edge .popLoad .loadHead (.popStamp head)
  | popStored head i : Edge (.popStamp head) (.loadStamp i) (.popCas head)
  | popFree head i : Edge (.popStamp head) (.loadStamp i) (.popTail head)
  | popAgain head i : Edge (.popStamp head) (.loadStamp i) .popLoad
  | popWon head : Edge (.popCas head) (.casHead true) (.popRead head)
  | popLost head head' : Edge (.popCas head) (.casHead false) (.popStamp head')
  | popRead head i msg : Edge (.popRead head) (.readValue i) (.popPublish head msg)
  | popPublish head msg i :
    Edge (.popPublish head msg) (.storeStamp i) (.done (.pop (some msg)))
  | empty head : Edge (.popTail head) .loadTail (.done (.pop none))
  | emptyAgain head : Edge (.popTail head) .loadTail .popLoad
  | emptyHead head : Edge .emptyHead .loadHead (.emptyTail head)
  | emptyTail head b : Edge (.emptyTail head) .loadTail (.done (.isEmpty b))
  | fullTail tail : Edge .fullTail .loadTail (.fullHead tail)
  | fullHead tail b : Edge (.fullHead tail) .loadHead (.done (.isFull b))
  | lenTail tail : Edge .lenTail .loadTail (.lenHead tail)
  | lenHead tail head : Edge (.lenHead tail) .loadHead (.lenCheck tail head)
  | lenOk tail head n : Edge (.lenCheck tail head) .loadTail (.done (.len n))
  | lenAgain tail head : Edge (.lenCheck tail head) .loadTail .lenTail

theorem edge {p p' : Pc c α} {q q' : Queue c α} {spurious : Bool} {a : Access}
    (hStep : p.step q spurious = some (a, q', p')) : p.Edge a p' := by
  cases p with
  | idle | done => cases hStep
  | pushStamp f =>
    rw [step] at hStep
    split_ifs at hStep
    · cases hStep
      constructor
    · cases f <;> cases hStep <;> constructor
    · cases hStep
      constructor
  | pushPublish f =>
    cases f <;> cases hStep <;> constructor
  | pushCas | forceCas | popCas | fullLoad | popTail | lenCheck | popStamp =>
    rw [step] at hStep
    split_ifs at hStep <;> cases hStep <;> constructor
  | _ =>
    cases hStep
    constructor

end Pc

def Label.thread : Label ι α → ι
  | .call t _ | .step t _ | .ret t _ => t

/-- What a label does to the point of thread t. -/
theorem System.step_thread [DecidableEq ι] [DecidableEq α] {s s' : System c ι α} {l : Label ι α}
    (hStep : s.step l = some s') (t : ι) :
    l.thread ≠ t ∧ s'.pc t = s.pc t ∨
    (∃ op, l = .call t op ∧ s.pc t = .idle ∧ s'.pc t = op.start) ∨
    (∃ x, l = .ret t x ∧ s.pc t = .done x ∧ s'.pc t = .idle) ∨
    ∃ spurious a q, l = .step t spurious ∧
      (s.pc t).step s.queue spurious = some (a, q, s'.pc t) := by
  by_cases hThread : l.thread = t
  · right
    subst hThread
    cases l with
    | call t op =>
      rw [step] at hStep
      split_ifs at hStep with hIdle
      cases hStep
      exact .inl ⟨op, rfl, hIdle, Function.update_self ..⟩
    | ret t x =>
      rw [step] at hStep
      split_ifs at hStep with hDone
      cases hStep
      exact .inr (.inl ⟨x, rfl, hDone, Function.update_self ..⟩)
    | step t spurious =>
      obtain ⟨⟨a, q, p⟩, hAccess, rfl⟩ := Option.map_eq_some_iff.mp hStep
      refine .inr (.inr ⟨spurious, a, q, rfl, ?_⟩)
      exact hAccess.trans (by simp only [Label.thread, Function.update_self])
  · refine .inl ⟨hThread, ?_⟩
    cases l with
    | call u op | ret u x =>
      rw [step] at hStep
      split_ifs at hStep
      cases hStep
      exact Function.update_of_ne (Ne.symm hThread) ..
    | step u spurious =>
      obtain ⟨⟨a, q, p⟩, -, rfl⟩ := Option.map_eq_some_iff.mp hStep
      exact Function.update_of_ne (Ne.symm hThread) ..

end NureQueue
