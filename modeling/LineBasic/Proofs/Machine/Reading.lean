import LineBasic.Proofs.Machine.Failure
import LineBasic.Proofs.Machine.Reachable
import LineBasic.Proofs.Program.DataPointer
import LineBasic.Proofs.Statement.Calls

/-! What `READ` stores, over a whole session. The pointer to the data stays where it is when lines are
entered and deleted, and all that `READ` takes are items of the program, as long as no line takes the
place of one in whose list the pointer stands. -/

namespace LineBasic

open Datum (Supplied ofLines)

namespace Statement

/-- The item `d` is taken and stored in the variable that stands at the cursor. -/
def Stores (m : Machine) (c : Cell) (d : Datum) (m' : Machine) : Prop :=
  ∃ m₁ m₂ v, Exec.target m = (.ok c, m₁) ∧ nextDatum m₁ = (.ok d, m₂) ∧ datumValue c d = .ok v ∧
    Exec.assign c v m₂ = (.ok (), m')

/-- What `READ` comes to from a variable on, with the items that it stores. -/
inductive Reads : Machine → List (Cell × Datum) → Except Condition Flow × Machine → Prop
  | fails {m m' : Machine} {e : Condition} (h : readOne m = (.error e, m')) : Reads m [] (.error e, m')
  | ends {m m' : Machine} {c : Cell} {d : Datum} (h : Stores m c d m') : Reads m [(c, d)] (.ok .done, m')
  | next {m m₁ m₂ : Machine} {c : Cell} {d : Datum} {stored : List (Cell × Datum)}
      {r : Except Condition Flow × Machine} (h : Stores m c d m₁)
      (hcomma : (liftM (Eval.accept .comma) : Exec Bool) m₁ = (.ok true, m₂)) (hrest : Reads m₂ stored r) :
      Reads m ((c, d) :: stored) r

variable {m m' : Machine}

theorem stores_of_readOne (h : readOne m = (.ok (), m')) : ∃ c d, Stores m c d m' := by
  obtain ⟨c, m₁, hc, h⟩ := bind_eq_ok h
  obtain ⟨d, m₂, hd, h⟩ := bind_eq_ok h
  obtain ⟨v, m₃, hv, h⟩ := bind_eq_ok h
  cases hvalue : datumValue c d with
  | error e =>
    rw [hvalue] at hv
    cases hv
  | ok value =>
    rw [hvalue] at hv
    cases hv
    exact ⟨c, d, m₁, m₂, _, hc, hd, hvalue, h⟩

theorem accept_cases (t : Token) (m : Machine) : (liftM (Eval.accept t) : Exec Bool) m = (.ok false, m) ∨
    ∃ m', (liftM (Eval.accept t) : Exec Bool) m = (.ok true, m') := by
  obtain ⟨found, n, hfound⟩ := Moves.accept t m.toWorkspace
  have haccept := Extends.liftM_apply hfound
  cases found with
  | true => exact .inr ⟨_, haccept⟩
  | false =>
    rw [Eval.accept_eq_false hfound] at hfound
    exact .inl (Extends.liftM_apply hfound)

theorem reads_separated (n : Nat) (m : Machine) : ∃ stored, Reads m stored
    ((separated (liftM (Eval.accept .comma) : Exec Bool) readOne n >>= fun _ => pure Flow.done) m) := by
  induction n generalizing m with
  | zero =>
    cases hone : readOne m with
    | mk r m' =>
      rw [separated, bind_assoc]
      cases r with
      | error e =>
        rw [bind_of_error hone]
        exact ⟨[], .fails hone⟩
      | ok _ =>
        obtain ⟨c, d, hstores⟩ := stores_of_readOne hone
        rw [bind_of_ok hone]
        exact ⟨[(c, d)], .ends hstores⟩
  | succ n ih =>
    cases hone : readOne m with
    | mk r m' =>
      rw [separated, bind_assoc]
      cases r with
      | error e =>
        rw [bind_of_error hone]
        exact ⟨[], .fails hone⟩
      | ok _ =>
        obtain ⟨c, d, hstores⟩ := stores_of_readOne hone
        rw [bind_of_ok hone, bind_assoc]
        rcases accept_cases .comma m' with hcomma | ⟨m₂, hcomma⟩
        · rw [bind_of_ok hcomma]
          exact ⟨[(c, d)], .ends hstores⟩
        · obtain ⟨stored, hrest⟩ := ih m₂
          refine ⟨(c, d) :: stored, .next hstores hcomma ?_⟩
          rw [bind_of_ok hcomma, if_pos rfl, bind_assoc]
          exact hrest

theorem reads_of_word? (h : m.word? = some .READ) : ∃ stored, Reads m.pastWord stored (one m) := by
  rw [one_of_word? h]
  exact reads_separated _ m.pastWord

/-! ## The items that are stored -/

theorem scan_supplied {program : Listing} :
    Action.scan.Keeps fun m => m.program = program ∧ Supplied program.lines m.data := by
  rintro m m' ⟨⟩ hm
  exact hm

theorem take_supplied {program : Listing} :
    Action.take.Keeps fun m => m.program = program ∧ Supplied program.lines m.data := by
  rintro m m' ⟨⟩ ⟨rfl, hm⟩
  exact ⟨rfl, hm.read⟩

theorem Stores.supplied {program : Listing} {c : Cell} {d : Datum} (h : Stores m c d m')
    (hm : m.program = program ∧ Supplied program.lines m.data) :
    d ∈ ofLines program.lines ∧ m'.program = program ∧ Supplied program.lines m'.data := by
  obtain ⟨m₁, m₂, v, htarget, hnext, -, hassign⟩ := h
  have h₁ := (Acts.target (b := .own) scan_supplied).snd hm
  rw [htarget] at h₁
  have h₂ := (Acts.nextDatum (b := .own) take_supplied).snd h₁
  rw [hnext] at h₂
  have h₃ := (Acts.assign (b := .own) scan_supplied c v).snd h₂
  rw [hassign] at h₃
  refine ⟨h₁.2.mem_of_read ?_, h₃⟩
  rw [← h₁.1]
  exact congrArg Prod.fst hnext

theorem Reads.supplied {program : Listing} {stored : List (Cell × Datum)}
    {r : Except Condition Flow × Machine} (h : Reads m stored r)
    (hm : m.program = program ∧ Supplied program.lines m.data) :
    ∀ c d, (c, d) ∈ stored → d ∈ ofLines program.lines := by
  induction h with
  | fails => exact nofun
  | ends h =>
    intro c d hd
    cases List.mem_singleton.mp hd
    exact (h.supplied hm).1
  | next h hcomma _ ih =>
    obtain ⟨hitem, hafter⟩ := h.supplied hm
    have hm₂ := (Acts.onWorkspace (b := .own) scan_supplied (Forward.accept .comma)).snd hafter
    rw [hcomma] at hm₂
    intro c d hd
    rcases List.mem_cons.mp hd with heq | hd
    · cases heq
      exact hitem
    · exact ih hm₂ c d hd

end Statement

namespace Machine

open Statement

variable {m m' : Machine}

/-! ## A session -/

section

variable {P : Machine → Prop}
  (hsame : ∀ {m m' : Machine}, P m → m'.program = m.program → m'.data = m.data → P m')
  (hmakes : ∀ a, Action.Keeps P a)

include hsame hmakes

/-- What is said of the program and the pointer is kept by a step if all actions keep it. -/
theorem step_keeps (hm : P m) : P m.step.2 := by
  cases hrunning : m.running with
  | false =>
    rw [step_of_idle hrunning]
    exact hm
  | true =>
    have hdata := tell_keeps (·.data) (fun _ _ _ => rfl) (fun _ _ _ => rfl) (fun _ _ _ => rfl) m.advance
    rw [step_eq hrunning]
    refine hsame ?_ (program_tell m.advance) hdata
    have hsought : ∀ {s}, m.Sought s → P s := by
      intro s hs
      refine hsame hm hs.program ?_
      rw [hs.eq]
    have hadvance := advanced m
    generalize m.advance = r at hadvance ⊢
    cases hadvance with
    | broken => exact hsame hm rfl rfl
    | @polled q =>
      have hpoll : P { m with inquiry := none } := hsame hm rfl rfl
      exact (Acts.pollInput (hmakes _) (hmakes _) (hmakes _) q).snd hpoll
    | finished _ _ hs => exact hsought (sought_of_next hs)
    | executed _ _ hs =>
      exact dispatch_keeps (fun _ _ a _ => hmakes a) (fun a _ => hmakes a) (hsought (sought_of_next hs)) _

theorem call_keeps {c : Call} (henter : ∀ s, c = .enter s → P (m.enter s).2)
    (hload : ∀ s, c = .load s → P (m.load s).2) (hm : P m) : P (m.call c) := by
  cases c with
  | enter s => exact henter s rfl
  | load s => exact hload s rfl
  | interrupt =>
    rw [call, interrupt]
    split
    · exact hsame hm rfl rfl
    · exact hm
  | execute n =>
    rw [call, execute]
    split
    · exact hsame hm rfl rfl
    · exact steps_induct (fun _ => step_keeps hsame hmakes) hm n
  | step => exact step_keeps hsame hmakes hm
  | type | takeOutput | expression | target | lineNumber => exact hsame hm rfl rfl

end

theorem typed_makes {a : Action} (h : m.Makes a m') (hm : m.program.Typed) : m'.program.Typed := by
  cases h with
  | erase => exact nofun
  | delete start stop => exact hm.filter _
  | _ => exact hm

theorem typed_enter (hm : m.program.Typed) (s : String) : (m.enter s).2.program.Typed := by
  have htaken := taken m s
  generalize m.enter s = r at htaken ⊢
  cases htaken with
  | refused | blank | started => exact hm
  | stored _ htext => exact hm.enter (Line.lexed_of_ofText htext).1

theorem typed_load (hm : m.program.Typed) (s : String) : (m.load s).2.program.Typed := by
  rw [load]
  split
  · exact hm
  · rename_i program htext
    exact .ofText htext

/-- The program of every session was typed. -/
theorem Reachable.typed {allowed : Machine → Call → Prop} (h : Reachable allowed m) : m.program.Typed := by
  induction h with
  | fresh => exact nofun
  | call _ c _ ih =>
    refine call_keeps (P := fun m => m.program.Typed) (fun hm hprogram _ => hprogram ▸ hm)
      (fun _ => typed_makes) (fun s _ => typed_enter ih s) (fun s _ => typed_load ih s) ih

/-- The lines were typed, and what is still to come are their items. -/
structure Furnished (m : Machine) : Prop where
  typed : m.program.Typed
  supplied : Supplied m.program.lines m.data

theorem Furnished.of_same (hm : m.Furnished) (hprogram : m'.program = m.program)
    (hdata : m'.data = m.data) : m'.Furnished := by
  obtain ⟨htyped, hsupplied⟩ := hm
  rw [← hprogram] at htyped
  rw [← hprogram, ← hdata] at hsupplied
  exact ⟨htyped, hsupplied⟩

theorem Furnished.makes {a : Action} (h : m.Makes a m') (hm : m.Furnished) : m'.Furnished := by
  refine ⟨typed_makes h hm.typed, ?_⟩
  cases h with
  | take => exact hm.supplied.read
  | restore | clear | erase => exact List.Subset.refl _
  | restoreAt => exact Datum.supplied_restore _ _
  | delete start stop =>
    exact hm.supplied.edit (hm.typed.filter _) fun _ _ _ l hl _ => (List.mem_filter.mp hl).1
  | _ => exact hm.supplied

/-- A line that is entered does not become the one in whose list the pointer stands. -/
def SparesList (m : Machine) (c : Call) : Prop :=
  ∀ s p l, c = .enter s → m.data = some p → p.inList = true →
    (m.enter s).2.program.get? p.line = some l → m.program.get? p.line = some l

theorem data_enter (m : Machine) (s : String) : (m.enter s).2.data = m.data := by
  have htaken := taken m s
  generalize m.enter s = r at htaken ⊢
  cases htaken <;> rfl

theorem Furnished.enter (hm : m.Furnished) {s : String} (hs : SparesList m (.enter s)) :
    (m.enter s).2.Furnished := by
  have htyped := typed_enter hm.typed s
  refine ⟨htyped, ?_⟩
  rw [data_enter]
  refine hm.supplied.edit htyped fun p hp hin l hl hnumber => ?_
  have hget := Listing.get?_of_mem hl
  rw [hnumber] at hget
  exact List.mem_of_find?_eq_some (hs s p l rfl hp hin hget)

theorem Furnished.load (hm : m.Furnished) (s : String) : (m.load s).2.Furnished := by
  refine ⟨typed_load hm.typed s, ?_⟩
  rw [Machine.load]
  split
  · exact hm.supplied
  · exact List.Subset.refl _

theorem Furnished.proceeds {m₀ : Machine} (h : Proceeds SparesList m₀ m) (hm : m₀.Furnished) : m.Furnished := by
  induction h with
  | refl => exact hm
  | call _ c hc ih =>
    refine call_keeps (P := Furnished) Furnished.of_same (fun _ => Furnished.makes) ?_
      (fun s _ => ih.load s) ih
    rintro s rfl
    exact ih.enter hc

theorem Starts.furnished {d : Machine} (hd : m.Starts d) (hm : m.Furnished) :
    d.Furnished ∧ d.program = m.program := by
  obtain ⟨-, s, hs, hopens⟩ := hd
  have hsought := sought_of_next hs
  have hsame : s.data = m.data := by rw [hsought.eq]
  exact ⟨hopens.keeps (fun _ _ => Furnished.makes) (hm.of_same hsought.program hsame),
    hopens.change.program.trans hsought.program⟩

/-- All that a `READ` stores are items of the program as it is then, in every session in which, since the
pointer to the data was last outside a list, no line has become the one in whose list it stands. -/
theorem read_of_reachable {allowed : Machine → Call → Prop} {m₀ d : Machine} (h₀ : Reachable allowed m₀)
    (hdata : ∀ p, m₀.data = some p → p.inList = false) (h : Proceeds SparesList m₀ m) (hd : m.Starts d)
    (hword : d.word? = some .READ) :
    ∃ stored, Reads d.pastWord stored (one d) ∧
      ∀ c x, (c, x) ∈ stored → x ∈ ofLines m.program.lines := by
  have hm₀ : m₀.Furnished := ⟨h₀.typed, Datum.supplied_of_typed h₀.typed hdata⟩
  obtain ⟨hfurnished, hprogram⟩ := hd.furnished (hm₀.proceeds h)
  obtain ⟨stored, hreads⟩ := reads_of_word? hword
  refine ⟨stored, hreads, ?_⟩
  rw [← hprogram]
  exact hreads.supplied (m := d.pastWord) ⟨rfl, hfurnished.supplied⟩

/-- The line in whose list the pointer stands is deleted, and the one after it becomes another. -/
theorem read_of_reachable_edited : ∃ m₀ m₁ m₂ m₃ m d : Machine,
    m₀ = entered ["10 DATA 1,2", "20 DATA 3", "READ A"] ∧ m₁ = (m₀.execute 2).2 ∧
    m₂ = (m₁.enter "10").2 ∧ m₃ = (m₂.enter "20 DATA 4,X").2 ∧ m = (m₃.enter "READ A,B$").2 ∧
    m₀.data = none ∧ m₁.data = some ⟨10, 3, true⟩ ∧
    ofLines m.program.lines = [⟨"4", false, 20⟩, ⟨"X", false, 20⟩] ∧ Reachable LoadsIdle m₀ ∧
    Proceeds SparesList m₀ m ∧ m.Starts d ∧ d.word? = some .READ ∧ (one d).1 = .ok .done ∧
    ∃ stored, Reads d.pastWord stored (one d) ∧
      ∀ c x, (c, x) ∈ stored → x ∈ ofLines m.program.lines := by
  have hstate : ∃ m₀ m₁ m₂ m₃ m : Machine,
      m₀ = entered ["10 DATA 1,2", "20 DATA 3", "READ A"] ∧ m₁ = (m₀.execute 2).2 ∧
      m₂ = (m₁.enter "10").2 ∧ m₃ = (m₂.enter "20 DATA 4,X").2 ∧ m = (m₃.enter "READ A,B$").2 ∧
      m₀.data = none ∧ m₁.data = some ⟨10, 3, true⟩ ∧
      ofLines m.program.lines = [⟨"4", false, 20⟩, ⟨"X", false, 20⟩] ∧
      [m₂, m₃, m].map (·.program.get? 10) = [none, none, none] ∧
      (m.running = true ∧ m.breakRequested = false ∧ m.inquiry = none ∧ m.nextStatement.1 = true ∧
        m.nextStatement.2.word? = some .READ ∧ (one m.nextStatement.2).1 = .ok .done) :=
    ⟨_, _, _, _, _, rfl, rfl, rfl, rfl, rfl, by decide +kernel⟩
  obtain ⟨m₀, m₁, m₂, m₃, m, hm₀, hm₁, hm₂, hm₃, hm, hdata₀, hdata₁, hitems, hgone, hr, hb, hq, hnext, hword,
    hone⟩ := hstate
  simp only [List.map_cons, List.map_nil, List.cons.injEq] at hgone
  obtain ⟨hgone₂, hgone₃, hgone, -⟩ := hgone
  have hdata₂ : m₂.data = some ⟨10, 3, true⟩ := by rw [hm₂, data_enter, hdata₁]
  have hdata₃ : m₃.data = some ⟨10, 3, true⟩ := by rw [hm₃, data_enter, hdata₂]
  have hspares : ∀ {m : Machine} {s}, m.data = some ⟨10, 3, true⟩ →
      (m.enter s).2.program.get? 10 = none → SparesList m (.enter s) := by
    intro m s hdata hnone _ p l hs hp _ hl
    cases hs
    cases hdata.symm.trans hp
    cases hnone.symm.trans hl
  have hreachable : Reachable LoadsIdle m₀ := hm₀ ▸ reachable_entered _
  have hproceeds₁ : Proceeds SparesList m₀ m₁ := hm₁ ▸ .call .refl (.execute 2) nofun
  have hproceeds₂ : Proceeds SparesList m₀ m₂ :=
    hm₂ ▸ .call hproceeds₁ (.enter "10") (hspares hdata₁ (hm₂ ▸ hgone₂))
  have hproceeds₃ : Proceeds SparesList m₀ m₃ :=
    hm₃ ▸ .call hproceeds₂ (.enter "20 DATA 4,X") (hspares hdata₂ (hm₃ ▸ hgone₃))
  have hproceeds : Proceeds SparesList m₀ m :=
    hm ▸ .call hproceeds₃ (.enter "READ A,B$") (hspares hdata₃ (hm ▸ hgone))
  have hstarts : m.Starts m.nextStatement.2 := ⟨⟨hr, hb, hq⟩, _, Prod.ext hnext rfl, .refl _⟩
  refine ⟨m₀, m₁, m₂, m₃, m, _, hm₀, hm₁, hm₂, hm₃, hm, hdata₀, hdata₁, hitems, hreachable, hproceeds, hstarts,
    hword, hone, read_of_reachable hreachable (fun p hp => ?_) hproceeds hstarts hword⟩
  cases hdata₀.symm.trans hp

/-- The line in whose list the pointer stands becomes a `PRINT`: its second expression is read as an
item, in a program that has none. -/
theorem read_of_replaced_list : ∃ (m₁ m₂ m d : Machine) (stored : List (Cell × Datum)) (c : Cell),
    m₁ = ((entered ["10 DATA 1,2", "READ A"]).execute 2).2 ∧ m₂ = (m₁.enter "10 PRINT 5,6").2 ∧
    m = (m₂.enter "READ B").2 ∧ m.Starts d ∧ d.word? = some .READ ∧ Reads d.pastWord stored (one d) ∧
    (c, ⟨"6", false, 10⟩) ∈ stored ∧ ofLines m.program.lines = [] := by
  have hstate : ∃ m₁ m₂ m : Machine,
      m₁ = ((entered ["10 DATA 1,2", "READ A"]).execute 2).2 ∧ m₂ = (m₁.enter "10 PRINT 5,6").2 ∧
      m = (m₂.enter "READ B").2 ∧ ofLines m.program.lines = [] ∧
      (m.running = true ∧ m.breakRequested = false ∧ m.inquiry = none ∧ m.nextStatement.1 = true ∧
        m.nextStatement.2.word? = some .READ) ∧
      (readOne m.nextStatement.2.pastWord).1 = .ok () ∧
      (nextDatum (Exec.target m.nextStatement.2.pastWord).2).1 = .ok ⟨"6", false, 10⟩ :=
    ⟨_, _, _, rfl, rfl, rfl, by decide +kernel⟩
  obtain ⟨m₁, m₂, m, hm₁, hm₂, hm, hitems, ⟨hr, hb, hq, hnext, hword⟩, hone, hdatum⟩ := hstate
  have hstarts : m.Starts m.nextStatement.2 := ⟨⟨hr, hb, hq⟩, _, Prod.ext hnext rfl, .refl _⟩
  have hfirst : ∀ {c x m'}, Stores m.nextStatement.2.pastWord c x m' → x = ⟨"6", false, 10⟩ := by
    rintro c x m' ⟨s₁, s₂, v, htarget, hx, -⟩
    rw [htarget, hx] at hdatum
    exact Except.ok.inj hdatum
  obtain ⟨stored, hreads⟩ := reads_of_word? hword
  have hstored : ∃ c, (c, ⟨"6", false, 10⟩) ∈ stored := by
    generalize one m.nextStatement.2 = r at hreads
    cases hreads with
    | fails h =>
      rw [h] at hone
      cases hone
    | ends h | next h =>
      rw [hfirst h]
      exact ⟨_, List.mem_cons_self⟩
  obtain ⟨c, hc⟩ := hstored
  exact ⟨m₁, m₂, m, _, stored, c, hm₁, hm₂, hm, hstarts, hword, hreads, hc, hitems⟩

end Machine

end LineBasic
