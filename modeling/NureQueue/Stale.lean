import NureQueue.Sequential

/-! # A word that is used too late

A push reads a tail word and the stamp of its slot, and is then suspended for K pushes of
another thread. The tail word has come back, so the exchange of the push succeeds on a
slot that is not free any more. This run is not timely.
-/

namespace NureQueue

universe u v

variable {c : Config} {ι : Type v} {α : Type u}

def Label.popFree : Label ι α → Prop
  | .call _ .pop => False
  | _ => True

instance : DecidablePred (Label.popFree : Label ι α → Prop)
  | .call _ .pop => .isFalse id
  | .call _ (.push _) | .call _ (.forcePush _) | .call _ .isEmpty | .call _ .isFull | .call _ .len
  | .step _ _ | .ret _ _ => .isTrue trivial

section Calls

variable [DecidableEq ι] [DecidableEq α]

theorem System.exec_call {s : System c ι α} {t : ι} (hIdle : s.pc t = .idle) {op : Op α}
    {q : Queue c α} {x : Ret α} (h : Alone.Finishes [] ⟨s.queue, op.start, 0, 0⟩ q x) :
    ∃ k, Runs.exec System.step s
      (.call t op :: (List.replicate k (.step t false) ++ [.ret t x])) = some ⟨q, s.pc⟩ := by
  obtain ⟨n, d, hRun⟩ := h
  obtain ⟨k, -, hExec⟩ := System.exec_alone ⟨s.queue, Function.update s.pc t op.start⟩ t n 0 0
  simp only [Function.update_self, hRun, Function.update_idem] at hExec
  refine ⟨k, Runs.exec_cons_eq_some.mpr ⟨⟨s.queue, Function.update s.pc t op.start⟩, ?_, ?_⟩⟩
  · rw [System.step, if_pos hIdle]
  · refine Runs.exec_snoc_eq_some.mpr ⟨_, hExec, ?_⟩
    rw [System.step, if_pos (Function.update_self ..), Function.update_idem, ← hIdle,
      Function.update_eq_self]

theorem System.exec_forcePushes {s : System c ι α} {r : Ring ι α} (hRest : AtRest c r s.queue)
    (hHead : r.head = r.tail - c.N) {t : ι} (hIdle : s.pc t = .idle) (value : α) (n : ℕ) :
    ∃ labels q r', Runs.exec System.step s labels = some ⟨q, s.pc⟩ ∧
      (∀ l ∈ labels, l.popFree) ∧ AtRest (ι := ι) c r' q ∧ r'.tail = r.tail + n ∧
      r'.head = r'.tail - c.N := by
  induction n with
  | zero => exact ⟨[], s.queue, r, rfl, nofun, hRest, rfl, hHead⟩
  | succ n ih =>
    obtain ⟨labels, q, r', hExec, hFree, hRest', hTail', hHead'⟩ := ih
    have hLow := hRest'.ok.head_le
    have hHigh := hRest'.ok.tail_le
    have hNext : ∃ q' x r'', Alone.Finishes [] ⟨q, (Op.forcePush value).start, 0, 0⟩ q' x ∧
        AtRest (ι := ι) c r'' q' ∧ r''.tail = r'.tail + 1 ∧ r''.head = r''.tail - c.N := by
      obtain hRoom | hFull := Nat.lt_or_ge r'.tail (r'.head + c.N)
      · refine ⟨_, _, _, Alone.push_finishes (hRest'.pushFree hRoom) .forcePush,
          hRest'.pushed t value hRoom, rfl, ?_⟩
        change r'.head = r'.tail + 1 - c.N
        omega
      · have hFull' : r'.tail = r'.head + c.N := by omega
        refine ⟨_, _, _, Alone.forcePush_finishes (hRest'.pushFull hFull'),
          hRest'.forced t value hFull', rfl, ?_⟩
        change r'.head + 1 = r'.tail + 1 - c.N
        omega
    obtain ⟨q', x, r'', hFinishes, hRest'', hTail'', hHead''⟩ := hNext
    obtain ⟨k, hCall⟩ := System.exec_call (s := ⟨q, s.pc⟩) hIdle hFinishes
    refine ⟨labels ++ _, q', r'', Runs.exec_append_eq_some.mpr ⟨_, hExec, hCall⟩, ?_, hRest'', ?_,
      hHead''⟩
    · intro l hl
      obtain hOld | hNew := List.mem_append.mp hl
      · exact hFree l hOld
      · simp only [List.mem_cons, List.mem_append, List.mem_replicate] at hNew
        obtain rfl | ⟨-, rfl⟩ | rfl | hNone := hNew
        · trivial
        · trivial
        · trivial
        · cases hNone
    · rw [hTail'', hTail']
      rfl

end Calls

/-- Thread 0 has read tail and the stamp of its slot, and is about to exchange. -/
def System.late (q : Queue .one ℕ) : System .one (Fin 2) ℕ where
  queue := q
  pc := Function.update (fun _ => .idle) 0 (.pushCas .push 7 0)

theorem System.exec_late : ∃ labels q,
    Runs.exec System.step (.new .one (Fin 2) ℕ) labels = some (System.late q) ∧
      (∀ l ∈ labels, l.popFree) ∧ q.tail = 0 ∧ q.head = -2 := by
  have hFirst : Runs.exec System.step (.new .one (Fin 2) ℕ)
      [.call 0 (.push 7), .step 0 false, .step 0 false] =
        some (System.late (.new .one ℕ)) := by
    have hSteps : Runs.exec System.step (.new .one (Fin 2) ℕ)
        [.call 0 (.push 7), .step 0 false, .step 0 false] = some ⟨.new .one ℕ,
          Function.update (Function.update (Function.update (fun _ => .idle) 0
            (.pushLoad .push 7)) 0 (.pushStamp .push 7 0)) 0 (.pushCas .push 7 0)⟩ := rfl
    rw [hSteps, Function.update_idem, Function.update_idem]
    rfl
  obtain ⟨labels, q, r, hExec, hFree, hRest, hTail, hHead⟩ :=
    System.exec_forcePushes (s := System.late (.new .one ℕ)) (t := 1)
      (AtRest.new .one (Fin 2) ℕ) rfl rfl 1 (Config.one).K
  refine ⟨_, q, Runs.exec_append_eq_some.mpr ⟨_, hFirst, hExec⟩, ?_, ?_, ?_⟩
  · intro l hl
    obtain hNew | hOld := List.mem_append.mp hl
    · simp only [List.mem_cons] at hNew
      obtain rfl | rfl | rfl | hNone := hNew
      · trivial
      · trivial
      · trivial
      · cases hNone
    · exact hFree l hOld
  · rw [hRest.mem.tail, hTail]
    decide
  · rw [hRest.mem.head, hHead, hTail]
    decide

/-- What thread 0 makes of the memory by its exchange and the accesses after it. -/
def Queue.overrun (q : Queue .one ℕ) : Queue .one ℕ :=
  (({ q with tail := Config.one.next 0 } : Queue .one ℕ).setValue 0 (some 7)).stampStore 0 1

theorem System.exec_overrun {q : Queue .one ℕ} (hTail : q.tail = 0) :
    Runs.exec System.step (System.late q)
      [.step 0 false, .step 0 false, .step 0 false, .ret 0 .pushOk] =
        some ⟨q.overrun, fun _ => .idle⟩ := by
  have hWon : System.step (System.late q) (.step 0 false) =
      some ⟨{ q with tail := Config.one.next 0 },
        Function.update (System.late q).pc 0 (.pushWrite .push 7 0)⟩ :=
    congrArg (Option.map _) (if_pos ⟨hTail, rfl⟩)
  have hRest : Runs.exec System.step
      (⟨{ q with tail := Config.one.next 0 },
        Function.update (System.late q).pc 0 (.pushWrite .push 7 0)⟩ : System .one (Fin 2) ℕ)
      [.step 0 false, .step 0 false, .ret 0 .pushOk] = some ⟨q.overrun,
        Function.update (Function.update (Function.update (Function.update (System.late q).pc 0
          (.pushWrite .push 7 0)) 0 (.pushPublish .push 0)) 0 (.done .pushOk)) 0 .idle⟩ := rfl
  refine Runs.exec_cons_eq_some.mpr ⟨_, hWon, hRest.trans ?_⟩
  simp only [System.late, Function.update_idem]
  rw [Function.update_eq_self]

/-- No call owns the slot, and yet neither a push nor a `force_push` can use it. -/
theorem Queue.overrun_busy {q : Queue .one ℕ} (hHead : q.head = -2) (f : Closure) (value : ℕ) :
    ¬ q.overrun.Decides (f.op value) := by
  have hTail : q.overrun.tail = Config.one.next 0 := rfl
  have hIndex : Config.one.index (Config.one.next 0) = 0 := by decide
  have hStamp : (q.overrun.buffer (Config.one.index q.overrun.tail)).stamp = 1 := by
    rw [hTail, hIndex]
    exact Queue.stampStore_stamp_self ..
  rw [f.decides_iff, PushFree, PushFull, hStamp, hTail, show q.overrun.head = -2 from hHead]
  decide

end NureQueue
