import LineBasic.Proofs.Statement.Dispatch

/-! The actions of the statement at the cursor. What the statements that `IF` starts keep together, and what
the last of them leads to, is what the whole of them comes to. -/

namespace LineBasic

/-- The actions of the statement at the cursor. -/
def Machine.actions (m : Machine) : List Action :=
  match m.word? with
  | some w => .scan :: w.actions
  | none => [.scan]

namespace Statement

variable {P Q : Machine → Prop} {m d : Machine}

theorem one_keeps (h : ∀ a ∈ m.actions, a.Keeps P) (hm : P m) : P (one m).2 := by
  rw [Machine.actions] at h
  cases hword : m.word? with
  | some w =>
    simp only [hword, List.forall_mem_cons] at h
    have hpast : P m.pastWord := h.1 (.scan (.advance m.toWorkspace)) hm
    rw [one_of_word? hword]
    exact (Acts.ofWord h.2).snd hpast
  | none =>
    simp only [hword, List.forall_mem_cons] at h
    have hpeek : CommutesAt Backdrop.own.behind m (liftM Eval.peek? : Exec _) (liftM Eval.peek?)
        (fun t s => t = m.cursor.peek? ∧ s = m) P := ⟨rfl, rfl, rfl⟩
    have hone : CommutesAt Backdrop.own.behind m one one (fun _ => P) P := by
      refine hpeek.bind ?_
      rintro t s ⟨ht, rfl⟩
      rw [Machine.word?, ← ht] at hword
      split
      · exact Steady.pure _ s hm
      · exact Steady.pure _ s hm
      · exact Acts.assignment h.1 s hm
      · rw [Option.bind_some] at hword
        simp only [hword]
        exact Steady.throw _ s hm
    exact hone.snd

theorem Opens.keeps (h : Opens m d) (hif : ∀ a ∈ Word.IF.actions, a.Keeps P) (hm : P m) : P d := by
  induction h with
  | refl m => exact hm
  | @again m m' d hone _ ih =>
    have hactions : m.actions = .scan :: Word.IF.actions := by
      rw [Machine.actions, word?_of_again hone]
    have hkept := one_keeps (m := m) (P := P) (by
      rw [hactions, List.forall_mem_cons]
      exact ⟨hif _ (.head _), hif⟩) hm
    rw [hone] at hkept
    exact ih hkept

theorem settle_snd (flow : Flow) (m : Machine) : (settle flow m).2 = m := by
  rcases settle_cases flow m with h | ⟨-, -, h⟩ <;> rw [h]

theorem snd_settled (m : Machine) : ((one >>= settle) m).2 = (one m).2 := by
  cases hone : one m with
  | mk r m' =>
    cases r with
    | error c => rw [bind_of_error hone]
    | ok flow => rw [bind_of_ok hone, settle_snd]

/-- What `IF` keeps holds where the last statement starts. -/
theorem dispatch_induct (hif : ∀ a ∈ Word.IF.actions, a.Keeps P) (hstays : ∀ d, P d → Q d)
    (hone : ∀ d, Opens m d → P d → Q (one d).2) (hm : P m) (n : Nat) : Q (dispatch n m).2 := by
  obtain ⟨d, x, hd, hx, hrun⟩ := dispatch_ends n m
  have hdispatch : dispatch n m = x d := hrun .own (Backdrop.own_spares m)
  have hPd : P d := hd.keeps hif hm
  rw [hdispatch]
  rcases hx with rfl | rfl
  · rw [settle_snd]
    exact hstays d hPd
  · rw [snd_settled]
    exact hone d hd hPd

/-- What the actions of all statements keep that are executed is kept. -/
theorem dispatch_keeps (h : ∀ d, Opens m d → ∀ a ∈ d.actions, a.Keeps P)
    (hif : ∀ a ∈ Word.IF.actions, a.Keeps P) (hm : P m) (n : Nat) : P (dispatch n m).2 :=
  dispatch_induct hif (fun _ hd => hd) (fun d hd hPd => one_keeps (h d hd) hPd) hm n

end Statement

end LineBasic
