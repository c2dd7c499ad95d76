import LineBasic.Proofs.Machine.Failure
import LineBasic.Proofs.Machine.Orderly
import LineBasic.Proofs.Memory.Cells

/-! Loops and calls over a whole session. The variable of a loop that is open is a number all the time,
so `NEXT` finds it and can step it on. -/

namespace LineBasic

theorem Listing.get_error {p : Listing} {n : Nat} {c : Condition} (h : p.get n = .error c) :
    c = .of .undefinedStatement := by
  rw [get] at h
  split at h <;> cases h
  rfl

namespace Machine

variable {m m' : Machine} {c : Condition}

theorem tokensOf_error {line : Option Nat} (h : m.tokensOf line = .error c) :
    c = .of .undefinedStatement := by
  cases line with
  | none => cases h
  | some n =>
    rw [tokensOf] at h
    cases hn : m.program.get n with
    | ok l =>
      rw [hn] at h
      cases h
    | error e =>
      rw [hn] at h
      cases h
      exact Listing.get_error hn

/-- The variable of a loop that is open is bound to a number. -/
theorem Orderly.number_of_loop (hm : m.Orderly) {l : Loop} (hl : Frame.loop l ∈ m.stack.items) :
    ∃ x, m.store.binding? l.var = some (.scalar (.number x)) := by
  obtain ⟨hname, hholds⟩ := hm.loops l hl
  obtain ⟨v, hb, hv⟩ := hm.store.scalar_of_holds hholds
  cases hv with
  | number x => exact ⟨x, hb⟩
  | string t hstring =>
    rw [hname] at hstring
    cases hstring

/-! ## What `NEXT` fails with -/

open Statement

/-- A number may be assigned to the variable of a loop. -/
theorem Orderly.assign_loop (hm : m.Orderly) {l : Loop} (hl : Frame.loop l ∈ m.stack.items) (x : Float) :
    ∃ s, Exec.assign ⟨l.var, []⟩ (.number x) m = (.ok (), { m with store := s }) := by
  obtain ⟨hname, hholds⟩ := hm.loops l hl
  have hv : Store.conform l.var (.number x) = .ok (.number x) :=
    Store.conform_of_type (c := ⟨l.var, []⟩) hname.symm nofun
  obtain ⟨s, hs, -⟩ := Store.set_of_holds hm.store.sized hholds hv
  refine ⟨s, Extends.liftM_apply ?_⟩
  rw [Eval.onStore_apply, hs]

/-- The number that a loop steps on may grow too large, and its line may be gone. -/
theorem Orderly.stepLoop_error (hm : m.Orderly) {l : Loop} {below : List Frame}
    (hl : Frame.loop l :: below <:+ m.stack.items) (h : stepLoop l below m = (.error c, m')) :
    c = .of .overflow ∨ c = .of .undefinedStatement := by
  obtain ⟨s, hset, hs, hmem⟩ : ∃ s, setFrames (.loop l :: below) m = (.ok (), s) ∧ s.Orderly ∧
      Frame.loop l ∈ s.stack.items := ⟨_, rfl, hm.close hl, List.mem_cons_self⟩
  obtain ⟨x, hx⟩ := hs.number_of_loop hmem
  have hnumber : (liftM (s.store.get ⟨l.var, []⟩).asNumber : Exec Float) s = (.ok x, s) := by
    rw [Store.get_of_scalar (c := ⟨l.var, []⟩) hx]
    rfl
  rw [stepLoop, bind_of_ok hset, bind_get, bind_of_ok hnumber] at h
  rcases bind_eq_error h with hfinite | ⟨_, s', hfinite, hrest⟩
  · exact .inl (require_eq_error (Prod.mk.inj hfinite).1)
  · obtain ⟨-, rfl⟩ := Prod.mk.inj hfinite
    obtain ⟨store, hassign⟩ := hs.assign_loop hmem (x + l.step)
    rw [bind_of_ok hassign] at hrest
    split at hrest
    · rcases bind_eq_error hrest with hjump | ⟨_, s, -, hpure⟩
      · exact .inr (tokensOf_error (jump_error hjump).1)
      · cases hpure
    · cases hrest

/-- `NEXT` fails only where there is no loop for it, and in the ways of `stepLoop_error`. -/
theorem Orderly.stepLoops_error (hm : m.Orderly) (hrunning : m.running = true) {n : Nat}
    (h : stepLoops n m = (.error c, m')) :
    c = .of .nextWithoutFor ∨ c = .of .overflow ∨ c = .of .undefinedStatement := by
  induction n generalizing m with
  | zero => cases h
  | succ n ih =>
    obtain ⟨var, k, hvar⟩ := Moves.name? m.toWorkspace
    have hs := hm.workspace (Past.skip m.toWorkspace k)
    rw [stepLoops, bind_of_ok (Extends.liftM_apply hvar), bind_get] at h
    generalize hm' : ({ m with cursor := m.cursor.skip k } : Machine) = s at h hs
    have hrunning : s.running = true := by
      rw [← hm']
      exact hrunning
    cases hfind : findLoop? var s.stack.items with
    | none =>
      rw [hfind] at h
      cases h
      exact .inl rfl
    | some found =>
      obtain ⟨l, below⟩ := found
      rw [hfind] at h
      have hsuffix := findLoop?_suffix hfind
      rcases bind_eq_error h with hstep | ⟨moved, t, hstep, hrest⟩
      · exact .inr (hs.stepLoop_error hsuffix hstep)
      · have hchange : Change moved true s t :=
          ((Lands.stepLoop (Backdrop.own_spares s) .refl hsuffix).ok hstep).2
        have ht := hs.change hrunning hchange
        cases moved with
        | true => cases hrest
        | false =>
          cases var with
          | none => cases hrest
          | some x =>
            obtain ⟨more, j, hmore⟩ := Moves.accept .comma t.toWorkspace
            have hrest : (liftM (Eval.accept .comma) >>= fun more =>
                if more then stepLoops n else pure .done : Exec Flow) t = (.error c, m') := hrest
            rw [bind_of_ok (Extends.liftM_apply hmore)] at hrest
            cases more with
            | false => cases hrest
            | true =>
              refine ih (ht.workspace (.skip t.toWorkspace j)) ?_ hrest
              exact hchange.running.trans hrunning

theorem Orderly.next_error (hm : m.Orderly) (hrunning : m.running = true)
    (h : next m = (.error c, m')) :
    c = .of .nextWithoutFor ∨ c = .of .overflow ∨ c = .of .undefinedStatement := by
  have hleft : (liftM Eval.tokensLeft : Exec Nat) m = (.ok m.cursor.rest.length, m) := rfl
  rw [next, bind_of_ok hleft] at h
  exact hm.stepLoops_error hrunning h

/-- Where the statement stands that a step executes, things are in order. -/
theorem Orderly.starts {d : Machine} (hm : m.Orderly) (h : m.Starts d) :
    d.pastWord.Orderly ∧ d.pastWord.running = true := by
  obtain ⟨hready, s, hnext, hopens⟩ := h
  have hsought := sought_of_next hnext
  have hrunning : s.running = true := by
    rw [hsought.eq]
    exact hready.running
  have hchange := hopens.change.pastWord
  exact ⟨(hm.sought hsought).change hrunning hchange, hchange.running.trans hrunning⟩

/-! ## Sessions -/

/-- In every session the stack has at most fifty frames, and between two loops over the same variable
there is a call. The variable of each loop is bound to a number, so that `NEXT` can only fail for want
of a loop, when the number grows too large, and when the line of the loop is gone. What points into the
direct line points at one of its tokens or behind the last. -/
theorem stack_of_reachable {allowed : Machine → Call → Prop} (h : Reachable allowed m) :
    m.stack.size ≤ 50 ∧ DistinctLoops m.stack.items ∧
    (∀ l, Frame.loop l ∈ m.stack.items → isStringName l.var = false ∧
      ∃ x, m.store.binding? l.var = some (.scalar (.number x))) ∧
    (∀ d c m', m.Starts d → d.word? = some .NEXT → next d.pastWord = (.error c, m') →
      c = .of .nextWithoutFor ∨ c = .of .overflow ∨ c = .of .undefinedStatement) ∧
    ∀ f ∈ m.stack.items, f.position.line = none → f.position.token ≤ m.direct.length := by
  have hm := h.orderly
  refine ⟨hm.height, hm.distinct, fun l hl => ⟨(hm.loops l hl).1, hm.number_of_loop hl⟩, ?_, hm.frames⟩
  intro d c m' hd _ hnext
  obtain ⟨hd, hrunning⟩ := hm.starts hd
  exact hd.next_error hrunning hnext

/-- A call from the direct line to a loop over the variable of a loop that is open there. -/
theorem stack_of_reachable_call : ∃ m : Machine,
    m = ((entered ["10 FOR I=1 TO 2:NEXT:RETURN", "FOR I=1 TO 3:GOSUB 10:NEXT"]).execute 3).2 ∧
    m.stack.items.map Frame.position = [⟨some 10, 6⟩, ⟨none, 9⟩, ⟨none, 6⟩] ∧ m.direct.length = 11 ∧
    Reachable LoadsIdle m ∧
    m.stack.size ≤ 50 ∧ DistinctLoops m.stack.items ∧
    (∀ l, Frame.loop l ∈ m.stack.items → isStringName l.var = false ∧
      ∃ x, m.store.binding? l.var = some (.scalar (.number x))) ∧
    (∀ d c m', m.Starts d → d.word? = some .NEXT → next d.pastWord = (.error c, m') →
      c = .of .nextWithoutFor ∨ c = .of .overflow ∨ c = .of .undefinedStatement) ∧
    ∀ f ∈ m.stack.items, f.position.line = none → f.position.token ≤ m.direct.length := by
  have hstate : ∃ m : Machine,
      m = ((entered ["10 FOR I=1 TO 2:NEXT:RETURN", "FOR I=1 TO 3:GOSUB 10:NEXT"]).execute 3).2 ∧
      m.stack.items.map Frame.position = [⟨some 10, 6⟩, ⟨none, 9⟩, ⟨none, 6⟩] ∧ m.direct.length = 11 :=
    ⟨_, rfl, by decide +kernel⟩
  obtain ⟨m, hm, hframes, hdirect⟩ := hstate
  have hreachable : Reachable LoadsIdle m := hm ▸ .call (reachable_entered _) (.execute 3) nofun
  exact ⟨m, hm, hframes, hdirect, hreachable, stack_of_reachable hreachable⟩

end Machine

end LineBasic
