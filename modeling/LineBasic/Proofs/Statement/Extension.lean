import LineBasic.Statement.Print
import LineBasic.Statement.Variables
import LineBasic.Proofs.Expression.Extension

/-! Simple statements before the tokens that end them. -/

namespace LineBasic

/-- Tokens that end a statement: none, or first a colon or `ELSE`. -/
def StatementEnd (suffix : List Token) : Prop :=
  ∀ t, suffix.head? = some t → t = .colon ∨ t = .word .ELSE

theorem StatementEnd.boundary {suffix : List Token} (h : StatementEnd suffix) : Boundary suffix := by
  intro t ht
  rcases h t ht with h | h
  · exact .inl h
  · exact .inr (.inl h)

namespace Extends

open Cursored

variable {α : Type} {suffix : List Token} {n : Nat} {left : α → Nat}

theorem liftM_apply {x : Eval α} {m : Machine} {r : Except Condition α} {w : Workspace}
    (h : x m.toWorkspace = (r, w)) : (liftM x : Exec α) m = (r, { m with toWorkspace := w }) := by
  show Exec.onWorkspace x m = _
  rw [Exec.onWorkspace, h]

theorem onWorkspace {x y : Eval α} (h : Extends suffix n left x y) :
    Extends suffix n left (liftM x : Exec α) (liftM y) := by
  intro m a m' hn hx
  cases hw : x m.toWorkspace with
  | mk r w =>
    rw [liftM_apply hw] at hx
    cases hx
    obtain ⟨-, hlast, taken, htaken, hy⟩ := h m.toWorkspace a w hn hw
    exact ⟨rfl, hlast, taken, htaken, fun passed p => liftM_apply (m := place m _ p) (hy passed p)⟩

theorem context : Extends suffix n (fun _ => n) Exec.context Exec.context :=
  still (fun _ => rfl) (fun _ => rfl) fun _ _ _ => rfl

theorem write (s : String) : Extends suffix n (fun _ => n) (Exec.write s) (Exec.write s) :=
  still (fun _ => rfl) (fun _ => rfl) fun _ _ _ => rfl

theorem assign (c : Cell) (v : Value) :
    Extends suffix n (fun _ => n) (Exec.assign c v) (Exec.assign c v) :=
  onWorkspace (onStore _)

section

variable (hs : Boundary suffix)

include hs

theorem expression : Extends suffix n (fun _ => n - 1) Exec.expression Exec.expression :=
  context.bind fun ctx => onWorkspace (evaluate hs ctx)

theorem target : Extends suffix n (fun _ => n - 1) Exec.target Exec.target :=
  context.bind fun ctx => onWorkspace <| name.bind fun x => subscripted hs (fun _ => evaluate hs ctx) x

theorem assignment : Extends suffix n (fun _ => n) Statement.assignment Statement.assignment := by
  refine (target hs).weaken.bind fun c => ?_
  refine (onWorkspace (expect (.operator .equal) (hs.ne nofun nofun nofun))).weaken.bind fun _ => ?_
  exact (expression hs).weaken.bind fun v => (assign c v).bind fun _ => pure _

theorem dimOne (ctx : Context) :
    Extends suffix n (fun _ => n) (Statement.dimOne ctx) (Statement.dimOne ctx) := by
  have hbound : ∀ n, Extends suffix n (fun _ => n) (Expression.evaluateShort ctx)
      (Expression.evaluateShort ctx) := fun n =>
    (evaluate hs ctx).weaken.bind fun v => lift v.asShort
  refine name.weaken.bind fun x => (expect .leftParen (hs.ne nofun nofun nofun)).weaken.bind fun _ => ?_
  refine (list (hs.ne nofun nofun nofun) hbound).bind fun bounds => ?_
  exact (expect .rightParen (hs.ne nofun nofun nofun)).weaken.bind fun _ => onStore _

theorem dim : Extends suffix n (fun _ => n) Statement.dim Statement.dim :=
  context.bind fun ctx =>
    (onWorkspace (list (hs.ne nofun nofun nofun) fun _ => dimOne hs ctx)).bind fun _ => pure _

theorem readOne : Extends suffix n (fun _ => n) Statement.readOne Statement.readOne := by
  have hdatum : Extends suffix n (fun _ => n) Statement.nextDatum Statement.nextDatum :=
    still (fun _ => rfl) (fun _ => rfl) fun _ _ _ => rfl
  exact (target hs).weaken.bind fun c => hdatum.bind fun d => (lift _).bind fun v => assign c v

theorem read : Extends suffix n (fun _ => n) Statement.read Statement.read := by
  refine bounded (fun _ => rfl) (fun h => h) fun n => ?_
  refine (separated (fun _ => onWorkspace (accept .comma (hs.ne nofun nofun nofun))) (fun m hm => ?_)
    (fun _ => readOne hs) (Nat.le_refl n) (Nat.le_refl _)).bind fun _ => pure _
  have hrest : m.cursor.rest = [] := hm
  exact liftM_apply (Eval.accept_of_ne m.toWorkspace m.cursor.passed (by simp [hrest]))

end

section

variable (hs : StatementEnd suffix)

include hs

theorem lineNumber? : Extends suffix n (fun _ => n) Eval.lineNumber? Eval.lineNumber? := by
  intro w a w' hn h
  by_cases hnum : ∃ t k, w.cursor.peek? = some t ∧ t.lineNumber = .ok k
  · obtain ⟨t, k, hpeek, ht⟩ := hnum
    obtain ⟨rest, hrest⟩ := List.head?_eq_some_iff.mp hpeek
    have hw : w = w.between w.cursor.passed (t :: rest) := by rw [← hrest]; rfl
    rw [hw, Eval.lineNumber?_of_ok _ _ ht] at h
    cases h
    refine ⟨rfl, ?_, [t], hrest, fun passed p => ?_⟩
    · have hlen : (t :: rest).length ≤ n := hrest ▸ hn
      exact Nat.le_of_succ_le hlen
    · have hrest : (cursor w).rest = t :: rest := hrest
      rw [hrest]
      exact Eval.lineNumber?_of_ok w passed ht
  · have hother : ∀ t k, w.cursor.peek? = some t → t.lineNumber ≠ .ok k :=
      fun t k hpeek ht => hnum ⟨t, k, hpeek, ht⟩
    rw [Eval.lineNumber?_of_none hother] at h
    cases h
    refine ⟨rfl, hn, [], rfl, fun passed p => Eval.lineNumber?_of_none ?_⟩
    intro t k hpeek
    have hpeek : (w.cursor.rest ++ suffix).head? = some t := hpeek
    cases hrest : w.cursor.rest with
    | nil =>
      rw [hrest] at hpeek
      rcases hs t hpeek with rfl | rfl <;> exact nofun
    | cons u rest =>
      rw [hrest] at hpeek
      exact hother t k (by rw [Cursor.peek?, hrest]; exact hpeek)

theorem restore : Extends suffix n (fun _ => n) Statement.restore Statement.restore := by
  refine (onWorkspace (lineNumber? hs)).bind fun found => ?_
  cases found with
  | none => exact still (fun _ => rfl) (fun _ => rfl) fun _ _ _ => rfl
  | some k =>
    let finish (program : Listing) : Exec Flow := do
      let _ ← program.get k
      modify ({ · with data := some ⟨k, 0, false⟩ })
      return .done
    have hfinish : ∀ program, Extends suffix n (fun _ => n) (finish program) (finish program) :=
      fun program => (lift _).bind fun _ => still (fun _ => rfl) (fun _ => rfl) fun _ _ _ => rfl
    exact view Machine.program (fun _ _ _ => rfl) hfinish

theorem atStatementEnd_append (c : Cursor) (passed : List Token) :
    Cursor.atStatementEnd ⟨passed, c.rest ++ suffix⟩ = c.atStatementEnd := by
  obtain ⟨passed', rest⟩ := c
  cases rest with
  | nil =>
    cases suffix with
    | nil => rfl
    | cons t suffix => rcases hs t rfl with rfl | rfl <;> rfl
  | cons t rest =>
    cases t with
    | word wd => cases wd <;> rfl
    | _ => rfl

theorem atStatementEnd :
    Extends suffix n (fun _ => n) Eval.atStatementEnd Eval.atStatementEnd := by
  intro w a w' hn h
  cases h
  refine ⟨rfl, hn, [], rfl, fun passed p => ?_⟩
  rw [← atStatementEnd_append hs w.cursor passed]
  rfl

omit hs in
theorem printItems_of_end {m : Machine} (h : m.cursor.atStatementEnd = true) (k : Nat) (due : Bool) :
    Statement.printItems k due m = (.ok due, m) := by
  cases k with
  | zero => rfl
  | succ k =>
    have hend : (liftM Eval.atStatementEnd : Exec Bool) m = (.ok true, m) := by
      rw [← h]
      rfl
    rw [Statement.printItems, bind_of_ok hend]
    rfl

theorem printItems {m m' : Nat} (hm : n ≤ m) (hm' : n + suffix.length ≤ m') (due : Bool) :
    Extends suffix n (fun _ => n) (Statement.printItems m due) (Statement.printItems m' due) := by
  induction n generalizing m m' due with
  | zero =>
    have hend : ∀ passed, Cursor.atStatementEnd ⟨passed, suffix⟩ = true := fun passed =>
      atStatementEnd_append hs ⟨passed, []⟩ passed
    refine at_end (fun s hs => printItems_of_end ?_ m due) fun s passed p _ =>
      printItems_of_end (hend passed) m' due
    have hrest : s.cursor.rest = [] := hs
    rw [Cursor.atStatementEnd, hrest]
  | succ n ih =>
    obtain ⟨m, rfl⟩ : ∃ k, m = k + 1 := ⟨m - 1, by omega⟩
    obtain ⟨m', rfl⟩ : ∃ k, m' = k + 1 := ⟨m' - 1, by omega⟩
    have hm : n ≤ m := by omega
    have hm' : n + suffix.length ≤ m' := by omega
    have hmore : ∀ due, Extends suffix n (fun _ => n + 1) (Statement.printItems m due)
        (Statement.printItems m' due) := fun due =>
      (ih hm hm' due).mono (Nat.le_refl n) fun _ => Nat.le_succ n
    have hb := hs.boundary
    refine (onWorkspace (atStatementEnd hs)).bind fun ended => ?_
    cases ended with
    | true => exact pure due
    | false =>
      refine (onWorkspace (accept .semicolon (hb.ne nofun nofun nofun))).bind fun found => ?_
      cases found with
      | true => exact hmore false
      | false =>
        refine (onWorkspace (accept .comma (hb.ne nofun nofun nofun))).bind fun found => ?_
        cases found with
        | true =>
          have htab : Extends suffix n (fun _ => n)
              (modify fun m => { m with tape := m.tape.comma } : Exec Unit) _ :=
            still (fun _ => rfl) (fun _ => rfl) fun _ _ _ => rfl
          exact htab.bind fun _ => hmore false
        | false => exact (expression hb).bind fun v => (write _).bind fun _ => hmore true

theorem print : Extends suffix n (fun _ => n) Statement.print Statement.print := by
  refine bounded (fun _ => rfl) (fun h => h) fun n => ?_
  exact (printItems hs (Nat.le_refl n) (Nat.le_refl _) true).bind fun due =>
    (write _).bind fun _ => pure _

end

end Extends

end LineBasic
