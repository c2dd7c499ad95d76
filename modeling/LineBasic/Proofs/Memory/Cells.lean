import LineBasic.Proofs.Memory.Shapes

/-! Variables are independent cells. The cells of an array are numbered row by row, no two subscripts
alike and none beyond the end. So a cell that was located takes every value of its type, has that value
from then on, and no other cell changes. -/

namespace LineBasic.Store

variable {s s' : Store} {c : Cell} {v : Value}

/-! ## The numbers of cells -/

/-- Subscripts within the bounds have a number below that of the next row. -/
theorem exists_offset? {bounds indexes : List Nat} (h : List.Forall₂ (· ≤ ·) indexes bounds) (n : Nat) :
    ∃ k, offset? bounds indexes n = some k ∧ k < (n + 1) * (bounds.map (· + 1)).prod := by
  induction h generalizing n with
  | nil => exact ⟨n, rfl, by simp⟩
  | @cons i b indexes bounds hle _ ih =>
    obtain ⟨k, hk, hlt⟩ := ih (n * (b + 1) + i)
    refine ⟨k, ?_, ?_⟩
    · rw [offset?, if_pos hle]
      exact hk
    · have hrow : n * (b + 1) + i + 1 ≤ (n + 1) * (b + 1) := by
        rw [Nat.succ_mul]
        omega
      calc k < (n * (b + 1) + i + 1) * (bounds.map (· + 1)).prod := hlt
        _ ≤ (n + 1) * (b + 1) * (bounds.map (· + 1)).prod := Nat.mul_le_mul_right _ hrow
        _ = (n + 1) * ((b :: bounds).map (· + 1)).prod := by
          rw [List.map_cons, List.prod_cons, Nat.mul_assoc]

theorem offset?_inj {bounds is js : List Nat} {n m k : Nat} (hi : offset? bounds is n = some k)
    (hj : offset? bounds js m = some k) : is = js ∧ n = m := by
  induction bounds generalizing is js n m with
  | nil =>
    cases is with
    | cons => cases hi
    | nil =>
      cases js with
      | cons => cases hj
      | nil =>
        cases hi
        cases hj
        exact ⟨rfl, rfl⟩
  | cons b bounds ih =>
    cases is with
    | nil => cases hi
    | cons i is =>
      cases js with
      | nil => cases hj
      | cons j js =>
        rw [offset?] at hi hj
        split at hi
        · rename_i hib
          split at hj
          · rename_i hjb
            obtain ⟨rfl, heq⟩ := ih hi hj
            -- two numbers in rows of `b + 1` cells
            have hn : n = m := by
              have hdiv := congrArg (· / (b + 1)) heq
              simp only [Nat.mul_comm _ (b + 1), Nat.mul_add_div (Nat.succ_pos b)] at hdiv
              rwa [Nat.div_eq_of_lt (Nat.lt_succ_of_le hib), Nat.div_eq_of_lt (Nat.lt_succ_of_le hjb)] at hdiv
            subst hn
            exact ⟨congrArg (· :: is) (Nat.add_left_cancel heq), rfl⟩
          · cases hj
        · cases hi

/-! ## Putting and getting -/

theorem get_congr (h : s'.binding? c.name = s.binding? c.name) : s'.get c = s.get c := by
  rw [get, get, h]

theorem get_of_scalar (hb : s.binding? c.name = some (.scalar v)) :
    s.get c = if c.indexes.isEmpty then v else Value.initial c.name := by
  rw [get, hb]
  by_cases hindexes : c.indexes.isEmpty <;> simp [hindexes]

theorem get_of_array {bounds : List Nat} {cells : Array Value}
    (hb : s.binding? c.name = some (.array bounds cells)) :
    s.get c = ((offset? bounds c.indexes 0).bind (cells[·]?)).getD (Value.initial c.name) := by
  rw [get, hb]

/-- A value that was put into a cell is there. -/
theorem Puts.get_self (h : Puts c v s s') : s'.get c = v := by
  cases h with
  | scalar hb hindexes =>
    have hb' : binding? ⟨s.bindings.modify c.name (Binding.setScalar v)⟩ c.name = some (.scalar v) := by
      rw [binding?_modify, if_pos rfl, hb]
      rfl
    rw [get_of_scalar hb', hindexes]
    rfl
  | @array bounds cells i hb hi hsize =>
    have hb' : binding? ⟨s.bindings.modify c.name (Binding.setCell i v)⟩ c.name =
        some (.array bounds (cells.setIfInBounds i v)) := by
      rw [binding?_modify, if_pos rfl, hb]
      rfl
    rw [get_of_array hb', hi]
    simp [hsize]

/-- Every other cell has the value that it had. -/
theorem Puts.get_of_ne {r : Cell} (h : Puts c v s s') (hr : r.name ≠ c.name ∨ r.indexes ≠ c.indexes) :
    s'.get r = s.get r := by
  by_cases hname : r.name = c.name
  · have hindexes : r.indexes ≠ c.indexes := hr.resolve_left (not_not_intro hname)
    cases h with
    | scalar hb hempty =>
      have hb' : binding? ⟨s.bindings.modify c.name (Binding.setScalar v)⟩ r.name = some (.scalar v) := by
        rw [binding?_modify, if_pos hname, hname, hb]
        rfl
      have hsub : r.indexes.isEmpty = false := by
        rw [hempty] at hindexes
        simpa using hindexes
      rw [get_of_scalar hb', get_of_scalar (hname ▸ hb), hsub]
      rfl
    | @array bounds cells i hb hi hsize =>
      have hb' : binding? ⟨s.bindings.modify c.name (Binding.setCell i v)⟩ r.name =
          some (.array bounds (cells.setIfInBounds i v)) := by
        rw [binding?_modify, if_pos hname, hname, hb]
        rfl
      rw [get_of_array hb', get_of_array (hname ▸ hb)]
      cases hj : offset? bounds r.indexes 0 with
      | none => rfl
      | some j =>
        have hne : i ≠ j := by
          rintro rfl
          exact hindexes (offset?_inj hj hi).1
        simp [Array.getElem?_setIfInBounds_ne hne]
  · refine get_congr ?_
    cases h <;> rw [binding?_modify, if_neg hname]

/-- What grows by first uses has the same values in all its cells. -/
theorem Grows.get_eq {N : String → Prop} (h : Grows N s s') (c : Cell) : s'.get c = s.get c := by
  rcases h c.name with heq | ⟨hnone, -, b, hb, hinitial⟩
  · exact get_congr heq
  · have hfirst : s.get c = Value.initial c.name := by
      rw [get, hnone]
      rfl
    rw [hfirst]
    cases hinitial with
    | scalar =>
      rw [get_of_scalar hb]
      exact ite_self _
    | array rank =>
      rw [get_of_array hb]
      cases offset? (List.replicate rank 10) c.indexes 0 with
      | none => rfl
      | some i =>
        rw [Option.bind_some, Array.getElem?_replicate]
        split <;> rfl

/-! ## Assignments -/

theorem put_eq_ok (h : s.put c v = (.ok (), s')) : Puts c v s s' := by
  unfold put at h
  split at h
  · rename_i old hb
    split at h
    · rename_i hindexes
      cases h
      exact .scalar hb (List.isEmpty_iff.mp hindexes)
    · cases h
  · rename_i bounds cells hb
    split at h
    · rename_i i hi
      split at h
      · rename_i hsize
        cases h
        exact .array hb hi hsize
      · cases h
    · cases h
  · cases h

/-- An assignment puts its value into the cell, of a name that may have been bound for this. -/
theorem set_eq_ok (h : s.set c v = (.ok (), s')) : ∃ s₁, Grows (· = c.name) s s₁ ∧ Puts c v s₁ s' := by
  rw [set] at h
  cases hv : conform c.name v with
  | error e =>
    rw [hv] at h
    cases h
  | ok v' =>
    obtain rfl := conform_eq hv
    rw [hv] at h
    simp only at h
    split at h
    · exact ⟨s, .refl s, put_eq_ok h⟩
    · have hgrows := locate_grows (s := s) (N := (· = c.name)) rfl (c.indexes.map Int.ofNat)
      split at h
      · cases h
      · rename_i c' s₁ hlocate
        rw [hlocate] at hgrows
        exact ⟨s₁, hgrows, put_eq_ok h⟩

/-- What was assigned to a cell is there. -/
theorem get_of_set (h : s.set c v = (.ok (), s')) : s'.get c = v ∧ (s'.binding? c.name).isSome := by
  obtain ⟨s₁, -, hputs⟩ := set_eq_ok h
  refine ⟨hputs.get_self, ?_⟩
  cases hputs with
  | scalar hb | array hb =>
    rw [binding?_modify, if_pos rfl, hb]
    rfl

/-- An assignment leaves every other cell as it is. -/
theorem get_of_set_of_ne {r : Cell} (h : s.set c v = (.ok (), s')) (hr : r ≠ c) : s'.get r = s.get r := by
  obtain ⟨s₁, hgrows, hputs⟩ := set_eq_ok h
  have hparts : r.name ≠ c.name ∨ r.indexes ≠ c.indexes := by
    obtain ⟨name, indexes⟩ := r
    obtain ⟨name', indexes'⟩ := c
    simpa [imp_iff_not_or] using hr
  rw [hputs.get_of_ne hparts, hgrows.get_eq]

theorem put_of_holds (hs : s.Sized) (hc : s.Holds c) (v : Value) :
    ∃ s', s.put c v = (.ok (), s') ∧ Puts c v s s' := by
  obtain ⟨b, hb, hadmits⟩ := hc
  have hsized := hs _ b hb
  cases b with
  | scalar old =>
    generalize hindexes : c.indexes = indexes at hadmits
    cases hadmits
    refine ⟨_, ?_, .scalar hb hindexes⟩
    rw [put, hb]
    simp only [hindexes, List.isEmpty_nil, if_true]
  | array bounds cells =>
    cases hadmits with
    | array _ hle =>
      cases hsized with
      | array hsize =>
        obtain ⟨i, hi, hlt⟩ := exists_offset? hle 0
        rw [Nat.zero_add, Nat.one_mul, ← cellCount_eq_prod, ← hsize] at hlt
        refine ⟨_, ?_, .array hb hi hlt⟩
        rw [put, hb]
        simp only [hi, if_pos hlt]

theorem conform_of_type (htype : v.isString = c.isString)
    (hlength : ∀ t, v = .string t → t.length ≤ 255) : conform c.name v = .ok v := by
  have hname : (v.isString == isStringName c.name) = true := beq_iff_eq.mpr htype
  unfold conform
  rw [if_pos hname]
  cases v with
  | number x => rfl
  | string t => exact if_pos (hlength t rfl)

theorem set_of_holds (hs : s.Sized) (hc : s.Holds c) (hv : conform c.name v = .ok v) :
    ∃ s', s.set c v = (.ok (), s') ∧ Puts c v s s' := by
  obtain ⟨s', hput, hputs⟩ := put_of_holds hs hc v
  obtain ⟨b, hb, -⟩ := hc
  refine ⟨s', ?_, hputs⟩
  rw [set, hv]
  simp only [hb, Option.isSome_some, if_true]
  exact hput

theorem all_le_of_forall₂ {bounds indexes : List Nat} (h : List.Forall₂ (· ≤ ·) indexes bounds) :
    (((indexes.map Int.ofNat).zip bounds).all fun (i, b) => 0 ≤ i && i ≤ b) = true := by
  induction h with
  | nil => rfl
  | cons hle _ ih =>
    rw [List.map_cons, List.zip_cons_cons, List.all_cons, ih, Bool.and_true]
    simpa using hle

/-- A cell that is there is located again, and nothing is bound for it. -/
theorem locate_of_holds (hc : s.Holds c) : s.locate c.name (c.indexes.map Int.ofNat) = (.ok c, s) := by
  obtain ⟨b, hb, hadmits⟩ := hc
  have hensure : s.ensure c.name (c.indexes.map Int.ofNat).length = .ok s := by
    rw [ensure, hb]
    rfl
  have hcell : cellOf c.name (c.indexes.map Int.ofNat) (some b) = .ok c := by
    obtain ⟨name, indexes⟩ := c
    cases hadmits with
    | scalar => rfl
    | @array bounds _ cells hle =>
      have hlength : (bounds.length == (indexes.map Int.ofNat).length) = true := by
        rw [List.length_map, hle.length_eq, beq_self_eq_true]
      have hback : (indexes.map Int.ofNat).map Int.toNat = indexes := by
        rw [List.map_map]
        exact List.map_id indexes
      rw [cellOf, if_pos hlength, if_pos (all_le_of_forall₂ hle), hback]
  rw [locate, hensure]
  simp only [hb, hcell]

/-! ## Cells over time -/

/-- What may be done to a store while a cell of it is known. -/
inductive Use where
  | dimension (name : String) (bounds : List Int)
  | locate (name : String) (indexes : List Int)
  | set (c : Cell) (v : Value)

/-- The store afterwards; what fails to dimension an array leaves it as it was. -/
def use (s : Store) : Use → Store
  | .dimension name bounds => (s.dimension name bounds).toOption.getD s
  | .locate name indexes => (s.locate name indexes).2
  | .set c v => (s.set c v).2

theorem use_persists (s : Store) (u : Use) : s.Persists (s.use u) := by
  cases u with
  | dimension name bounds =>
    rw [use]
    cases h : s.dimension name bounds with
    | error e => exact .refl s
    | ok s' => exact dimension_persists h
  | locate name indexes => exact locate_persists s name indexes
  | set c v => exact set_persists s c v

/-- The stores there are. A name may also be bound to something else for a while, and then again to
what it was bound to before, or to nothing. -/
inductive Built : Store → Prop
  | empty : Built empty
  | use {s : Store} (hs : Built s) (u : Use) : Built (s.use u)
  | scalar {s : Store} (hs : Built s) (name : String) (v : Value) :
    Built (s.swap name (some (.scalar v))).2
  | again {s s' : Store} {x : String} {b : Binding} (hs : Built s) (hs' : Built s')
    (hb : s'.binding? x = some b) (name : String) : Built (s.swap name (some b)).2
  | unbound {s : Store} (hs : Built s) (name : String) : Built (s.swap name none).2

theorem Sized.swap (hs : s.Sized) (name : String) {b : Option Binding} (hb : ∀ b', b = some b' → b'.Sized) :
    (s.swap name b).2.Sized := by
  intro x b' hx
  rw [binding?_swap] at hx
  split at hx
  · exact hb b' hx
  · exact hs x b' hx

theorem Built.sized (h : s.Built) : s.Sized := by
  induction h with
  | empty => exact nofun
  | use _ u ih => exact (use_persists _ u).sized_of_sized ih
  | scalar _ name v ih =>
    refine ih.swap name fun b' hb' => ?_
    cases hb'
    exact .scalar v
  | again _ _ hb name ih ih' =>
    refine ih.swap name fun b' hb' => ?_
    cases hb'
    exact ih' _ _ hb
  | unbound _ name ih => exact ih.swap name nofun

/-- The cell was located in some store, and only uses have followed. -/
inductive Obtained (c : Cell) : Store → Prop
  | locate {s s' : Store} {name : String} {indexes : List Int} (hs : s.Built)
    (h : s.locate name indexes = (.ok c, s')) : Obtained c s'
  | use {s : Store} (h : Obtained c s) (u : Use) : Obtained c (s.use u)

theorem Obtained.holds (h : Obtained c s) : s.Sized ∧ s.Holds c := by
  induction h with
  | @locate s s' name indexes hs h =>
    have hpersists := locate_persists s name indexes
    rw [h] at hpersists
    exact ⟨hpersists.sized_of_sized hs.sized, (holds_of_locate h).2.2⟩
  | @use s _ u ih =>
    have hpersists := use_persists s u
    exact ⟨hpersists.sized_of_sized ih.1, hpersists.holds ih.2⟩

/-- An assignment to a cell of a value of its type succeeds. The cell has that value then, under every
way to name it, and every other cell has the value that it had. -/
theorem set_obtained (hc : Obtained c s) (htype : v.isString = c.isString)
    (hlength : ∀ t, v = .string t → t.length ≤ 255) :
    ∃ s', s.set c v = (.ok (), s') ∧
      (∀ r : Cell, r.name = c.name → r.indexes = c.indexes → s'.get r = v) ∧
      s'.locate c.name (c.indexes.map Int.ofNat) = (.ok c, s') ∧
      ∀ r : Cell, r.name ≠ c.name ∨ r.indexes ≠ c.indexes → s'.get r = s.get r := by
  obtain ⟨hsized, hholds⟩ := hc.holds
  obtain ⟨s', hset, hputs⟩ := set_of_holds hsized hholds (conform_of_type htype hlength)
  refine ⟨s', hset, fun r hname hindexes => ?_, locate_of_holds (hputs.persists.holds hholds), fun r hr =>
    hputs.get_of_ne hr⟩
  obtain ⟨name, indexes⟩ := r
  obtain ⟨rfl, rfl⟩ : name = c.name ∧ indexes = c.indexes := ⟨hname, hindexes⟩
  exact hputs.get_self

/-- A cell in an array of two dimensions, where another cell of it was assigned to since. -/
theorem set_obtained_matrix : ∃ s s₁ : Store,
    s = (empty.use (.dimension "A" [2, 3])) ∧ s.locate "A" [1, 2] = (.ok ⟨"A", [1, 2]⟩, s₁) ∧
    ∃ s₂, s₁.use (.set ⟨"A", [2, 1]⟩ (.number 1)) = s₂ ∧ Obtained ⟨"A", [1, 2]⟩ s₂ ∧
    ∃ s', s₂.set ⟨"A", [1, 2]⟩ (.number 7) = (.ok (), s') ∧
      (∀ r : Cell, r.name = "A" → r.indexes = [1, 2] → s'.get r = .number 7) ∧
      s'.locate "A" [1, 2] = (.ok ⟨"A", [1, 2]⟩, s') ∧
      ∀ r : Cell, r.name ≠ "A" ∨ r.indexes ≠ [1, 2] → s'.get r = s₂.get r := by
  have hlocate : (empty.use (.dimension "A" [2, 3])).locate "A" [1, 2] = (.ok ⟨"A", [1, 2]⟩, _) := rfl
  have hobtained := Obtained.use (.locate (.use .empty _) hlocate) (.set ⟨"A", [2, 1]⟩ (.number 1))
  exact ⟨_, _, rfl, hlocate, _, rfl, hobtained, set_obtained hobtained (by decide) nofun⟩

end LineBasic.Store
