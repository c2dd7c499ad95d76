import LineBasic.Proofs.Memory.Bindings

/-! What is left of a failure. An operation on the store that fails has changed nothing, but for one case: where
a name is used for the first time and its subscripts are refused, the name has become an array. -/

namespace LineBasic.Store

variable {s s' : Store} {name : String} {indexes : List Int} {e : Condition}

theorem Adds.binding?_self {b : Binding} (h : Adds name b s s') : s'.binding? name = some b := by
  rw [h.eq, binding?_insert, if_pos rfl]

theorem Adds.binding?_of_some {b b' : Binding} {x : String} (h : Adds name b s s')
    (hx : s.binding? x = some b') : s'.binding? x = some b' := by
  have hne : x ≠ name := by
    rintro rfl
    rw [h.unbound] at hx
    cases hx
  rw [h.eq, binding?_insert, if_neg hne, hx]

/-! ## What comes of a first use -/

/-- The array that a first use with so many subscripts makes. -/
def implicitArray (name : String) (rank : Nat) : Binding :=
  .array (List.replicate rank 10) (Array.replicate (11 ^ rank) (Value.initial name))

theorem bind_cases (s : Store) (name : String) (b : Binding) (hnone : s.binding? name = none) :
    s.bind name b = .error (.of .outOfMemory) ∨ ∃ s', s.bind name b = .ok s' ∧ Adds name b s s' := by
  cases h : s.bind name b with
  | ok s' => exact .inr ⟨s', rfl, bind_adds hnone h⟩
  | error e =>
    unfold bind at h
    split at h
    · cases h
    · cases h
      exact .inl rfl

/-- There is no room for one more name or for that many cells, or the name is bound. -/
theorem ensure_of_none (rank : Nat) (hnone : s.binding? name = none) :
    s.ensure name rank = .error (.of .outOfMemory) ∨ ∃ s', s.ensure name rank = .ok s' ∧
      Adds name (if rank = 0 then .scalar (Value.initial name) else implicitArray name rank) s s' := by
  have hensure : s.ensure name rank = if rank == 0 then s.bind name (.scalar (Value.initial name))
      else newArray name (List.replicate rank implicitBound) >>= s.bind name := by
    rw [ensure, hnone]
    rfl
  rw [hensure]
  by_cases hrank : rank = 0
  · simpa [hrank] using bind_cases s name _ hnone
  · have hpos : (rank == 0) = false := by simpa using hrank
    rw [hpos, if_neg hrank, newArray, cellCount_replicate]
    by_cases hcells : 11 ^ rank ≤ maxCells
    · rw [if_pos hcells]
      exact bind_cases s name _ hnone
    · rw [if_neg hcells]
      exact .inl rfl

/-! ## What comes of subscripts -/

/-- With as many subscripts as an array has, nothing can be wrong but one that is out of range. -/
theorem cellOf_implicitArray (name : String) (indexes : List Int) :
    (∃ c, cellOf name indexes (some (implicitArray name indexes.length)) = .ok c) ∨
      cellOf name indexes (some (implicitArray name indexes.length)) = .error (.of .badSubscript) := by
  simp only [cellOf, implicitArray, List.length_replicate, beq_self_eq_true, if_true]
  split
  · exact .inl ⟨_, rfl⟩
  · exact .inr rfl

theorem locate_of_some {b : Binding} (hb : s.binding? name = some b) :
    s.locate name indexes = (cellOf name indexes (some b), s) := by
  rw [locate, ensure, hb]
  simp [hb]

theorem locate_of_ensure (h : s.ensure name indexes.length = .ok s') :
    s.locate name indexes = (cellOf name indexes (s'.binding? name), s') := by
  rw [locate, h]

/-- A first use with subscripts that fails after all has made an array, or there was no room for one. -/
theorem locate_of_none (hnone : s.binding? name = none) (h : s.locate name indexes = (.error e, s')) :
    s' = s ∧ e = .of .outOfMemory ∨
      indexes ≠ [] ∧ e = .of .badSubscript ∧ Adds name (implicitArray name indexes.length) s s' := by
  rcases ensure_of_none indexes.length hnone with herror | ⟨s₁, hok, hadds⟩
  · rw [locate, herror] at h
    cases h
    exact .inl ⟨rfl, rfl⟩
  · rw [locate_of_ensure hok, hadds.binding?_self] at h
    obtain ⟨hcell, rfl⟩ := Prod.mk.inj h
    by_cases hindexes : indexes = []
    · simp [hindexes, cellOf] at hcell
    · have hrank : indexes.length ≠ 0 := by simpa using hindexes
      rw [if_neg hrank] at hadds hcell
      rcases cellOf_implicitArray name indexes with ⟨c, hc⟩ | hbad
      · rw [hc] at hcell
        cases hcell
      · rw [hbad] at hcell
        cases hcell
        exact .inr ⟨hindexes, rfl, hadds⟩

theorem locate_again {c : Cell} (h : s.locate name indexes = (.ok c, s')) :
    s'.locate name indexes = (.ok c, s') := by
  cases hensure : s.ensure name indexes.length with
  | error e =>
    rw [locate, hensure] at h
    cases h
  | ok s₁ =>
    rw [locate_of_ensure hensure] at h
    obtain ⟨hcell, rfl⟩ := Prod.mk.inj h
    cases hb : s₁.binding? name with
    | none =>
      rw [hb] at hcell
      cases hcell
    | some b => rw [locate_of_some hb, ← hb, hcell]

/-! ## Failures -/

theorem put_error {c : Cell} {v : Value} (h : s.put c v = (.error e, s')) : s' = s := by
  unfold put at h
  split at h
  · split at h <;> cases h
    rfl
  · split at h
    · split at h <;> cases h
      rfl
    · cases h
      rfl
  · cases h
    rfl

theorem set_error {c : Cell} {v : Value} (hbound : (s.binding? c.name).isSome = true)
    (h : s.set c v = (.error e, s')) : s' = s := by
  unfold set at h
  split at h
  · cases h
    rfl
  · rw [if_pos hbound] at h
    exact put_error h

theorem dim_of_some {b : Binding} (hb : s.binding? name = some b) (bounds : List Int) :
    s.dim name bounds = (.error (.of .redimensionedArray), s) := by
  rw [dim, dimension, hb]
  rfl

theorem dim_error {bounds : List Int} (h : s.dim name bounds = (.error e, s')) : s' = s := by
  unfold dim at h
  split at h <;> cases h
  rfl

/-- An operation on a store that fails leaves it as it was: dimensioning an array, assigning to a cell whose
name is bound, and locating a cell. Only where a name that was not bound is located with subscripts, and
the failure is a subscript out of range, has something changed, and no more than that the name is now
an array as after any first use, which cannot be dimensioned. Locating a cell once more gives the same
cell and leaves the store alone. -/
theorem intact_of_failure (s : Store) :
    (∀ name bounds e s', s.dim name bounds = (.error e, s') → s' = s) ∧
    (∀ c v e s', (s.binding? c.name).isSome → s.set c v = (.error e, s') → s' = s) ∧
    (∀ name indexes e s', s.locate name indexes = (.error e, s') →
      (∀ x b, s.binding? x = some b → s'.binding? x = some b) ∧
      (s.binding? name = none ∧ indexes ≠ [] ∧ e.fault = .badSubscript →
        Adds name (.array (List.replicate indexes.length 10)
          (Array.replicate (11 ^ indexes.length) (if isStringName name then .string "" else .number 0))) s s' ∧
        ∀ bounds, s'.dim name bounds = (.error (.of .redimensionedArray), s')) ∧
      (¬ (s.binding? name = none ∧ indexes ≠ [] ∧ e.fault = .badSubscript) → s' = s)) ∧
    ∀ name indexes c s', s.locate name indexes = (.ok c, s') → s'.locate name indexes = (.ok c, s') := by
  refine ⟨fun _ _ _ _ => dim_error, fun _ _ _ _ => set_error, ?_, fun _ _ _ _ => locate_again⟩
  intro name indexes e s' h
  cases hb : s.binding? name with
  | some b =>
    rw [locate_of_some hb] at h
    obtain ⟨-, rfl⟩ := Prod.mk.inj h
    simp
  | none =>
    rcases locate_of_none hb h with ⟨rfl, rfl⟩ | ⟨hindexes, rfl, hadds⟩
    · simp [Condition.of]
    · refine ⟨fun x b hx => hadds.binding?_of_some hx, ?_, ?_⟩
      · intro _
        exact ⟨hadds, dim_of_some hadds.binding?_self⟩
      · intro hother
        exact absurd ⟨rfl, hindexes, rfl⟩ hother

theorem intact_of_failure_first_use : ∃ s', empty.locate "A" [11] = (.error (.of .badSubscript), s') ∧
    Adds "A" (.array [10] (Array.replicate 11 (.number 0))) empty s' ∧
    ∀ bounds, s'.dim "A" bounds = (.error (.of .redimensionedArray), s') := by
  refine ⟨_, rfl, ?_⟩
  exact ((intact_of_failure empty).2.2.1 "A" [11] _ _ rfl).2.1 ⟨rfl, by simp, rfl⟩

end LineBasic.Store
