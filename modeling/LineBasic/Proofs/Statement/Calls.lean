import LineBasic.Proofs.Statement.Footprint

/-! Statements that call a subroutine: `GOSUB`, and `ON` with a list of lines. Where one of them makes the
stack grow, it has called the line that its list names, and left behind where that list ends. -/

namespace LineBasic

/-- Line numbers with commas between them. -/
inductive Targets : List Token → List Nat → Prop
  | one {t : Token} {n : Nat} (h : t.lineNumber = .ok n) : Targets [t] [n]
  | more {t : Token} {n : Nat} {ts : List Token} {ns : List Nat} (h : t.lineNumber = .ok n)
      (hts : Targets ts ns) : Targets (t :: .comma :: ts) (n :: ns)

/-- At the end of a statement there is nothing, a colon or an `ELSE`. -/
theorem Cursor.peek?_of_atStatementEnd {c : Cursor} {t : Token} (h : c.atStatementEnd = true)
    (ht : c.peek? = some t) : t = .colon ∨ t = .word .ELSE := by
  obtain ⟨rest, hrest⟩ := List.head?_eq_some_iff.mp ht
  rw [atStatementEnd, hrest] at h
  split at h
  · rename_i hnil
    cases hnil
  · rename_i hcolon
    exact .inl (List.cons.inj hcolon).1
  · rename_i helse
    exact .inr (List.cons.inj helse).1
  · cases h

namespace Eval

variable {w w' : Workspace}

theorem lineNumber_eq_ok {n : Nat} (h : lineNumber w = (.ok n, w')) : ∃ t rest,
    w.cursor.rest = t :: rest ∧ t.lineNumber = .ok n ∧ w' = { w with cursor := w.cursor.skip 1 } := by
  have hpeek : peek? w = (.ok w.cursor.peek?, w) := rfl
  rw [lineNumber, bind_of_ok hpeek] at h
  cases hnext : w.cursor.peek? with
  | none =>
    rw [hnext] at h
    cases h
  | some t =>
    obtain ⟨rest, hrest⟩ := List.head?_eq_some_iff.mp hnext
    rw [hnext] at h
    obtain ⟨k, s, hk, hpass⟩ := bind_eq_ok h
    obtain ⟨ht, rfl⟩ := Prod.mk.inj hk
    cases hpass
    exact ⟨t, rest, hrest, ht, by rw [Cursor.advance_eq_skip]⟩

theorem separated_lineNumber {n : Nat} {ns : List Nat}
    (h : separated (accept .comma) lineNumber n w = (.ok ns, w')) : ∃ list after,
      w.cursor.rest = list ++ after ∧ Targets list ns ∧
        w' = { w with cursor := w.cursor.skip list.length } := by
  induction n generalizing w w' ns with
  | zero =>
    obtain ⟨k, s, hk, hpure⟩ := bind_eq_ok h
    obtain ⟨t, rest, hrest, ht, rfl⟩ := lineNumber_eq_ok hk
    cases hpure
    exact ⟨[t], rest, hrest, .one ht, rfl⟩
  | succ n ih =>
    obtain ⟨k, s, hk, hmore⟩ := bind_eq_ok h
    obtain ⟨t, rest, hrest, ht, rfl⟩ := lineNumber_eq_ok hk
    obtain ⟨more, s, haccept, hend⟩ := bind_eq_ok hmore
    cases more with
    | false =>
      obtain rfl := accept_eq_false haccept
      cases hend
      exact ⟨[t], rest, hrest, .one ht, rfl⟩
    | true =>
      obtain ⟨rest', hrest', rfl⟩ := accept_eq_true haccept
      obtain ⟨ks, s, hks, hpure⟩ := bind_eq_ok hend
      obtain ⟨list, after, hafter, hlist, rfl⟩ := ih hks
      cases hpure
      simp only [Cursor.skip, hrest, List.drop_succ_cons, List.drop_zero] at hrest'
      subst hrest'
      simp only [Cursor.skip, hrest, List.drop_succ_cons, List.drop_zero] at hafter
      refine ⟨t :: .comma :: list, after, by rw [hrest, hafter]; rfl, .more ht hlist, ?_⟩
      rw [Expression.skip_skip, Expression.skip_skip]
      congr 2
      simp only [List.length_cons]
      omega

theorem list_lineNumber {ns : List Nat} (h : list lineNumber w = (.ok ns, w')) : ∃ list after,
    w.cursor.rest = list ++ after ∧ Targets list ns ∧
      w' = { w with cursor := w.cursor.skip list.length } := by
  obtain ⟨n, s, hn, hitems⟩ := bind_eq_ok h
  cases hn
  exact separated_lineNumber hitems

theorem endStatement_eq_ok {u : Unit} (h : endStatement w = (.ok u, w')) : w' = w := by
  obtain ⟨ended, s, hended, hrequire⟩ := bind_eq_ok h
  cases hended
  exact (Prod.mk.inj hrequire).2.symm

theorem atStatementEnd_of_endStatement {u : Unit} (h : endStatement w = (.ok u, w')) :
    w.cursor.atStatementEnd = true := by
  obtain ⟨ended, s, hended, hrequire⟩ := bind_eq_ok h
  cases hended
  exact require_eq_ok (Prod.mk.inj hrequire).1

end Eval

namespace Statement

variable {m d : Machine}

/-! ## Calls -/

/-- The statement at `d` calls line `n`, which is the only one of its list or the one at the place that
the expression gives; and `p` is behind that list. -/
inductive Calls (d : Machine) (n : Nat) : Position → Prop
  | gosub {list after : List Token} (h : d.cursor.rest = .word .GOSUB :: (list ++ after))
      (hn : Targets list [n]) : Calls d n ⟨d.line, d.cursor.pos + 1 + list.length⟩
  | on {e : Int} {s : Machine} {list after : List Token} {ns : List Nat} (hword : d.word? = some .ON)
      (he : Exec.short d.pastWord = (.ok e, s)) (h : s.cursor.rest = .word .GOSUB :: (list ++ after))
      (hns : Targets list ns) (hpos : 0 < e) (hn : ns[e.toNat - 1]? = some n) :
      Calls d n ⟨d.line, s.cursor.pos + 1 + list.length⟩

/-- Where a call of line `n` leads from `m`. -/
def Called (m : Machine) (n : Nat) (m' : Machine) : Prop :=
  ∃ tokens stack, m.tokensOf (some n) = .ok tokens ∧ m.stack.push (.call m.position) = .ok stack ∧
    m' = { m with stack, cursor := .atToken tokens 0, line := some n }

/-- A call fails with nothing done, or leads to its line. -/
theorem call_at (n : Nat) (m : Machine) : CommutesAt Backdrop.own.behind m (call n) (call n)
    (fun flow m' => flow = .moved ∧ Called m n m') (· = m) := by
  refine .get (.lift rfl rfl fun l hl => .lift rfl rfl fun stack hstack => .set rfl ?_)
  have ht : m.tokensOf (some n) = .ok l.tokens := by
    rw [Machine.tokensOf, hl]
    rfl
  have hjump : Exec.goto n { m with stack } = _ :=
    Exec.jump_of_ok (m := { m with stack }) (p := ⟨some n, 0⟩) ht
  have htransfer := bind_of_ok (f := fun _ => pure Flow.moved) hjump
  unfold CommutesAt
  rw [transfer, htransfer]
  exact ⟨htransfer, rfl, l.tokens, stack, ht, hstack, rfl⟩

theorem liftM_at {α : Type} (x : Eval α) (m : Machine) :
    CommutesAt Backdrop.own.behind m (liftM x : Exec α) (liftM x)
      (fun a m' => ∃ w, x m.toWorkspace = (.ok a, w) ∧ m' = { m with toWorkspace := w })
      (fun m' => m'.stack = m.stack) := by
  cases hw : x m.toWorkspace with
  | mk r w =>
    have hrun := Extends.liftM_apply (m := m) hw
    unfold CommutesAt
    rw [hrun]
    refine ⟨hrun, ?_⟩
    cases r with
    | ok a => exact ⟨w, rfl, rfl⟩
    | error e => rfl

theorem liftM_eq_ok {α : Type} {x : Eval α} {m m' : Machine} {a : α} (h : (liftM x : Exec α) m = (.ok a, m')) :
    ∃ w, x m.toWorkspace = (.ok a, w) ∧ m' = { m with toWorkspace := w } :=
  ((liftM_at x m).ok h).2

theorem gosub_at (m : Machine) : CommutesAt Backdrop.own.behind m gosub gosub
    (fun flow m' => flow = .moved ∧ ∃ n w, Eval.lineNumber m.toWorkspace = (.ok n, w) ∧
      Called { m with toWorkspace := w } n m')
    (fun m' => m'.stack = m.stack) := by
  refine (liftM_at Eval.lineNumber m).bind ?_
  rintro n _ ⟨w, hw, rfl⟩
  refine (liftM_at Eval.endStatement { m with toWorkspace := w }).bind ?_
  rintro _ _ ⟨w', hw', rfl⟩
  obtain rfl := Eval.endStatement_eq_ok hw'
  refine (call_at n { m with toWorkspace := w' }).mono ?_ ?_
  · rintro flow m' ⟨hflow, hcalled⟩
    exact ⟨hflow, n, _, hw, hcalled⟩
  · rintro _ rfl
    rfl

theorem stack_makes {a : Action} (ha : a ∈ [Action.scan, .goto, .trap, .leave]) {m m' : Machine}
    (h : m.Makes a m') : m'.stack = m.stack := by
  cases h with
  | scan | goto | trap | leave => rfl
  | _ => simp at ha

/-- The statement at the cursor is an `ON` that calls line `n` and goes on from `s` to do so. -/
structure Selects (m : Machine) (n : Nat) (s : Machine) : Prop where
  exists_list : ∃ e s₀ w ns, Exec.short m = (.ok e, s₀) ∧ transferWord s₀.toWorkspace = (.ok true, w) ∧
    Eval.list Eval.lineNumber w = (.ok ns, s.toWorkspace) ∧ (none :: ns.map some)[e.toNat]? = some (some n)
  same : s = { m with toWorkspace := s.toWorkspace }

theorem select_at (m : Machine) : CommutesAt Backdrop.own.behind m select select
    (fun flow m' => m'.stack = m.stack ∨ flow = .moved ∧ ∃ n s, Selects m n s ∧ Called s n m')
    (fun m' => m'.stack = m.stack) := by
  have hshort : CommutesAt Backdrop.own.behind m Exec.short Exec.short
      (fun e s => ∃ w, Expression.evaluateShort m.context m.toWorkspace = (.ok e, w) ∧
        s = { m with toWorkspace := w })
      (fun m' => m'.stack = m.stack) :=
    .get (liftM_at (Expression.evaluateShort m.context) m)
  refine hshort.bind ?_
  rintro e _ ⟨w, hw, rfl⟩
  have he : Exec.short m = (.ok e, { m with toWorkspace := w }) := Extends.liftM_apply hw
  refine .lift rfl rfl fun _ _ => ?_
  refine (liftM_at transferWord { m with toWorkspace := w }).bind ?_
  rintro calls _ ⟨w₁, hcalls, rfl⟩
  refine (liftM_at (Eval.list Eval.lineNumber) { m with toWorkspace := w₁ }).bind ?_
  rintro ns _ ⟨w₂, hns, rfl⟩
  refine (liftM_at Eval.endStatement { m with toWorkspace := w₂ }).bind ?_
  rintro _ _ ⟨w₃, hend, rfl⟩
  obtain rfl := Eval.endStatement_eq_ok hend
  split
  · rename_i n hn
    cases calls with
    | true =>
      refine (call_at n { m with toWorkspace := w₃ }).mono ?_ ?_
      · rintro flow m' ⟨hflow, hcalled⟩
        exact .inr ⟨hflow, n, _, ⟨⟨e, _, w₁, ns, he, hcalls, hns, hn⟩, rfl⟩, hcalled⟩
      · rintro _ rfl
        rfl
    | false =>
      have hkeeps : Action.goto.Keeps fun m' : Machine => m'.stack = m.stack := fun h hm =>
        (stack_makes (by simp) h).trans hm
      refine (Acts.transfer hkeeps n { m with toWorkspace := w₃ } rfl).mono ?_ fun _ h => h
      exact fun _ _ h => .inl h
  · exact ⟨rfl, .inl rfl⟩

theorem on_at (m : Machine) : CommutesAt Backdrop.own.behind m on on
    (fun flow m' => m'.stack = m.stack ∨ flow = .moved ∧ ∃ n s, Selects m n s ∧ Called s n m')
    (fun m' => m'.stack = m.stack) := by
  have hkeeps : ∀ {a : Action}, a ∈ [Action.scan, .goto, .trap, .leave] →
      a.Keeps fun m' : Machine => m'.stack = m.stack :=
    fun ha _ _ h hm => (stack_makes ha h).trans hm
  refine (liftM_at (Eval.accept (.word .ERROR)) m).bind ?_
  rintro found _ ⟨w, hw, rfl⟩
  cases found with
  | true =>
    have herror := Acts.onError (hkeeps (by simp)) (hkeeps (by simp)) (hkeeps (by simp))
    refine (herror { m with toWorkspace := w } rfl).mono ?_ fun _ h => h
    exact fun _ _ h => .inl h
  | false =>
    obtain rfl := Eval.accept_eq_false hw
    exact select_at m

/-! ## What was called -/

theorem rest_of_word? {w : Word} (h : d.word? = some w) : ∃ rest, d.cursor.rest = .word w :: rest := by
  obtain ⟨t, hpeek, ht⟩ := Option.bind_eq_some_iff.mp h
  obtain ⟨rest, hrest⟩ := List.head?_eq_some_iff.mp hpeek
  cases t with
  | word w' =>
    rw [Token.statement?] at ht
    split at ht <;> cases ht
    exact ⟨rest, hrest⟩
  | _ => cases ht

theorem transferWord_eq_true {w w' : Workspace} (h : transferWord w = (.ok true, w')) : ∃ rest,
    w.cursor.rest = .word .GOSUB :: rest ∧ w' = { w with cursor := w.cursor.skip 1 } := by
  have hnext : Eval.next? w = (.ok w.cursor.peek?, { w with cursor := w.cursor.advance }) := rfl
  rw [transferWord, bind_of_ok hnext] at h
  have hgosub : w.cursor.peek? = some (.word .GOSUB) := by
    generalize w.cursor.peek? = t at h ⊢
    split at h
    · cases h
    · rfl
    · cases h
  obtain ⟨rest, hrest⟩ := List.head?_eq_some_iff.mp hgosub
  rw [hgosub] at h
  cases h
  exact ⟨rest, hrest, by rw [Cursor.advance_eq_skip]⟩

/-- Where a statement that calls stands when it does so. -/
structure Leaves (d : Machine) (p : Position) (s : Machine) : Prop where
  same : s = { d with toWorkspace := s.toWorkspace }
  tokens : s.cursor.tokens = d.cursor.tokens
  position : s.position = p

theorem calls_of_gosub {n : Nat} {w : Workspace} (hword : d.word? = some .GOSUB)
    (h : Eval.lineNumber d.pastWord.toWorkspace = (.ok n, w)) :
    ∃ p, Calls d n p ∧ Leaves d p { d with toWorkspace := w } := by
  obtain ⟨rest, hrest⟩ := rest_of_word? hword
  obtain ⟨t, after, hafter, ht, rfl⟩ := Eval.lineNumber_eq_ok h
  have hpast : d.pastWord.cursor.rest = rest := by
    simp [Machine.pastWord, Cursor.advance, hrest]
  rw [hpast] at hafter
  subst hafter
  have hcalls : Calls d n ⟨d.line, d.cursor.pos + 1 + [t].length⟩ := .gosub hrest (.one ht)
  refine ⟨_, hcalls, rfl, ?_, ?_⟩
  · simp [Machine.pastWord]
  · simp [Machine.position, Machine.pastWord, Cursor.advance_eq_skip, Cursor.skip, hrest, Cursor.pos]

theorem calls_of_selects {n : Nat} {s : Machine} (hword : d.word? = some .ON)
    (h : Selects d.pastWord n s) : ∃ p, Calls d n p ∧ Leaves d p s := by
  obtain ⟨⟨e, s₀, w, ns, he, hcalls, hns, hn⟩, hs⟩ := h
  have hs₀ : ∃ w, Past d.pastWord.toWorkspace w ∧ s₀ = { d with toWorkspace := w } := by
    have hrun : (liftM (Expression.evaluateShort d.pastWord.context) : Exec Int) d.pastWord = (.ok e, s₀) := he
    exact ((Acts.onWorkspace_at (b := .own) (Forward.evaluateShort _) d.pastWord).ok hrun).2
  obtain ⟨rest, hrest, rfl⟩ := transferWord_eq_true hcalls
  obtain ⟨list, after, hafter, hlist, hw⟩ := Eval.list_lineNumber hns
  have hplace : 0 < e ∧ ns[e.toNat - 1]? = some n := by
    cases hk : e.toNat with
    | zero =>
      rw [hk] at hn
      cases hn
    | succ k =>
      rw [hk] at hn
      exact ⟨by omega, by simpa using hn⟩
  have hrest' : rest = list ++ after := by
    simpa [Cursor.skip, hrest] using hafter
  subst hrest'
  obtain ⟨w₀, hpast, rfl⟩ := hs₀
  have hcursor : s.cursor = (w₀.cursor.skip 1).skip list.length := by rw [hw]
  refine ⟨_, .on hword he hrest hlist hplace.1 hplace.2, hs, ?_, ?_⟩
  · rw [hcursor, Cursor.tokens_skip, Cursor.tokens_skip, hpast.tokens]
    exact Cursor.tokens_advance d.cursor
  · have hline : s.line = d.line := by rw [hs]; rfl
    have hlength : (w₀.cursor.rest).length = 1 + (list.length + after.length) := by
      rw [hrest]
      simp only [List.length_cons, List.length_append]
      omega
    rw [Machine.position, hline, hcursor, Expression.skip_skip, Cursor.pos_skip, hlength]
    congr 1
    show w₀.cursor.pos + _ = w₀.cursor.pos + 1 + list.length
    omega

/-- Where `GOSUB` or `ON` changes the stack, it has called a line. -/
theorem calls_of_one (hword : d.word? = some .GOSUB ∨ d.word? = some .ON) (h : (one d).2.stack ≠ d.stack) :
    ∃ n p s m', Calls d n p ∧ Leaves d p s ∧ one d = (.ok .moved, m') ∧ Called s n m' := by
  rcases hword with hword | hword
  · rw [one_of_word? hword] at h ⊢
    cases hrun : gosub d.pastWord with
    | mk r m' =>
      have hrun' : ofWord .GOSUB d.pastWord = (r, m') := hrun
      rw [hrun'] at h ⊢
      cases r with
      | error e => exact absurd ((gosub_at d.pastWord).error hrun).2 h
      | ok flow =>
        obtain ⟨rfl, n, w, hn, hcalled⟩ := ((gosub_at d.pastWord).ok hrun).2
        obtain ⟨p, hcalls, hleaves⟩ := calls_of_gosub hword hn
        exact ⟨n, p, _, m', hcalls, hleaves, rfl, hcalled⟩
  · rw [one_of_word? hword] at h ⊢
    cases hrun : on d.pastWord with
    | mk r m' =>
      have hrun' : ofWord .ON d.pastWord = (r, m') := hrun
      rw [hrun'] at h ⊢
      cases r with
      | error e => exact absurd ((on_at d.pastWord).error hrun).2 h
      | ok flow =>
        rcases ((on_at d.pastWord).ok hrun).2 with hsame | ⟨rfl, n, s, hselects, hcalled⟩
        · exact absurd hsame h
        · obtain ⟨p, hcalls, hleaves⟩ := calls_of_selects hword hselects
          exact ⟨n, p, s, m', hcalls, hleaves, rfl, hcalled⟩

end Statement

end LineBasic
