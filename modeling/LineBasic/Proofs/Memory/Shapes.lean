import Mathlib.Data.List.Forall2
import LineBasic.Proofs.Memory.Bindings

/-! The shapes of bindings. All that locating, dimensioning and assigning do to a store is to bind one
more name and to put a value into a cell. So a name that is bound stays a scalar, or an array with the
same bounds and as many cells, and a cell that was located once stays one of its array. -/

namespace LineBasic

namespace Binding

/-- The same binding but for the values it holds. -/
inductive Similar : Binding → Binding → Prop
  | scalar (v v' : Value) : Similar (.scalar v) (.scalar v')
  | array (bounds : List Nat) {cells cells' : Array Value} (h : cells'.size = cells.size) :
    Similar (.array bounds cells) (.array bounds cells')

/-- Subscripts that select a cell. -/
inductive Admits : Binding → List Nat → Prop
  | scalar (v : Value) : Admits (.scalar v) []
  | array {bounds indexes : List Nat} (cells : Array Value) (h : List.Forall₂ (· ≤ ·) indexes bounds) :
    Admits (.array bounds cells) indexes

/-- An array has a cell for every choice of subscripts. -/
inductive Sized : Binding → Prop
  | scalar (v : Value) : Sized (.scalar v)
  | array {bounds : List Nat} {cells : Array Value} (h : cells.size = Store.cellCount bounds) :
    Sized (.array bounds cells)

variable {b b' b'' : Binding}

theorem Similar.refl (b : Binding) : b.Similar b := by
  cases b with
  | scalar v => exact .scalar v v
  | array bounds cells => exact .array bounds rfl

theorem Similar.trans (h : b.Similar b') (h' : b'.Similar b'') : b.Similar b'' := by
  cases h with
  | scalar =>
    cases h' with
    | scalar => exact .scalar _ _
  | array bounds hsize =>
    cases h' with
    | array _ hsize' => exact .array bounds (hsize'.trans hsize)

theorem Similar.admits {indexes : List Nat} (h : b.Similar b') (hb : b.Admits indexes) :
    b'.Admits indexes := by
  cases h with
  | scalar =>
    cases hb
    exact .scalar _
  | array =>
    cases hb with
    | array _ hle => exact .array _ hle

theorem Similar.sized (h : b.Similar b') (hb : b.Sized) : b'.Sized := by
  cases h with
  | scalar => exact .scalar _
  | array bounds hsize =>
    cases hb with
    | array hcells => exact .array (hsize.trans hcells)

theorem IsInitial.sized {name : String} (h : b.IsInitial name) : b.Sized := by
  cases h with
  | scalar => exact .scalar _
  | array rank =>
    refine .array ?_
    rw [Array.size_replicate]
    exact (Store.cellCount_replicate rank).symm

end Binding

namespace Store

variable {s s' s'' : Store}

/-! ## What is done to a store -/

/-- A cell of a bound name takes a value. -/
inductive Puts (c : Cell) (v : Value) (s : Store) : Store → Prop
  | scalar {old : Value} (hb : s.binding? c.name = some (.scalar old)) (hindexes : c.indexes = []) :
    Puts c v s ⟨s.bindings.modify c.name (Binding.setScalar v)⟩
  | array {bounds : List Nat} {cells : Array Value} {i : Nat}
    (hb : s.binding? c.name = some (.array bounds cells)) (hi : offset? bounds c.indexes 0 = some i)
    (hsize : i < cells.size) : Puts c v s ⟨s.bindings.modify c.name (Binding.setCell i v)⟩

theorem dimension_adds {name : String} {bounds : List Int} (h : s.dimension name bounds = .ok s') :
    cellCount (bounds.map Int.toNat) ≤ maxCells ∧
      Adds name (.array (bounds.map Int.toNat)
        (Array.replicate (cellCount (bounds.map Int.toNat)) (Value.initial name))) s s' := by
  unfold dimension at h
  split at h
  · cases h
  · rename_i hsome
    split at h
    · cases h
    · exact bind_newArray_adds (by simpa using hsome) h

theorem put_puts (s : Store) (c : Cell) (v : Value) :
    (s.put c v).2 = s ∨ Puts c v s (s.put c v).2 := by
  unfold put
  split
  · rename_i hb
    split
    · rename_i hindexes
      exact .inr (.scalar hb (by simpa using hindexes))
    · exact .inl rfl
  · rename_i hb
    split
    · rename_i hi
      split
      · rename_i hsize
        exact .inr (.array hb hi hsize)
      · exact .inl rfl
    · exact .inl rfl
  · exact .inl rfl

theorem conform_eq {name : String} {v v' : Value} (h : conform name v = .ok v') : v' = v := by
  unfold conform at h
  split at h
  · cases v with
    | number x =>
      cases h
      rfl
    | string t =>
      simp only [Value.ofString] at h
      split at h
      · cases h
        rfl
      · cases h
  · cases h

/-- What holds after an assignment: it may leave the store as it is, bind the name again, and put a
value that conforms to the name. -/
theorem set_induct {P : Store → Prop} {c : Cell} {v : Value} (hs : P s)
    (hlocate : P (s.locate c.name (c.indexes.map Int.ofNat)).2)
    (hputs : conform c.name v = .ok v → ∀ s₁ s₂, P s₁ → Puts c v s₁ s₂ → P s₂) : P (s.set c v).2 := by
  have hput : conform c.name v = .ok v → ∀ s₁, P s₁ → P (s₁.put c v).2 := by
    intro hv s₁ hs₁
    rcases put_puts s₁ c v with heq | hput
    · rw [heq]
      exact hs₁
    · exact hputs hv s₁ _ hs₁ hput
  unfold set
  split
  · exact hs
  · rename_i v' hv
    obtain rfl := conform_eq hv
    split
    · exact hput hv s hs
    · split
      · rename_i s₁ hfailed
        rw [hfailed] at hlocate
        exact hlocate
      · rename_i s₁ hfound
        rw [hfound] at hlocate
        exact hput hv s₁ hlocate

/-! ## Bindings before and after -/

theorem binding?_modify (s : Store) (name : String) (f : Binding → Binding) (x : String) :
    binding? ⟨s.bindings.modify name f⟩ x =
      if x = name then (s.binding? x).map f else s.binding? x := by
  simp only [binding?, Std.TreeMap.getElem?_modify, Std.LawfulEqCmp.compare_eq_iff_eq]
  by_cases hx : x = name
  · rw [if_pos hx.symm, if_pos hx, hx]
  · rw [if_neg (Ne.symm hx), if_neg hx]

/-- What is bound stays bound alike, and every other array has all its cells. -/
structure Persists (s s' : Store) : Prop where
  bound : ∀ x b, s.binding? x = some b → ∃ b', s'.binding? x = some b' ∧ b.Similar b'
  sized : ∀ x b, s.binding? x = none → s'.binding? x = some b → b.Sized

theorem Persists.refl (s : Store) : s.Persists s := by
  refine ⟨fun x b hb => ⟨b, hb, .refl b⟩, fun x b hnone hb => ?_⟩
  rw [hnone] at hb
  cases hb

theorem Persists.trans (h : s.Persists s') (h' : s'.Persists s'') : s.Persists s'' := by
  refine ⟨fun x b hb => ?_, fun x b hnone hb => ?_⟩
  · obtain ⟨b', hb', hsimilar⟩ := h.bound x b hb
    obtain ⟨b'', hb'', hsimilar'⟩ := h'.bound x b' hb'
    exact ⟨b'', hb'', hsimilar.trans hsimilar'⟩
  · cases hx : s'.binding? x with
    | none => exact h'.sized x b hx hb
    | some b' =>
      obtain ⟨b'', hb'', hsimilar⟩ := h'.bound x b' hx
      rw [hb] at hb''
      cases hb''
      exact hsimilar.sized (h.sized x b' hnone hx)

theorem Adds.persists {name : String} {b : Binding} (h : Adds name b s s') (hb : b.Sized) :
    s.Persists s' := by
  obtain ⟨hnone, -, rfl⟩ := h
  refine ⟨fun x b' hx => ⟨b', ?_, .refl b'⟩, fun x b' hx hx' => ?_⟩
  · rw [binding?_insert, if_neg, hx]
    rintro rfl
    rw [hnone] at hx
    cases hx
  · rw [binding?_insert] at hx'
    split at hx'
    · cases hx'
      exact hb
    · rw [hx] at hx'
      cases hx'

theorem persists_modify {name : String} {f : Binding → Binding}
    (hf : ∀ b, s.binding? name = some b → b.Similar (f b)) :
    s.Persists ⟨s.bindings.modify name f⟩ := by
  refine ⟨fun x b hb => ?_, fun x b hnone hb => ?_⟩
  · rw [binding?_modify, hb]
    by_cases hx : x = name
    · subst hx
      exact ⟨f b, if_pos rfl, hf b hb⟩
    · exact ⟨b, if_neg hx, .refl b⟩
  · rw [binding?_modify, hnone, Option.map_none, ite_self] at hb
    cases hb

theorem Puts.persists {c : Cell} {v : Value} (h : Puts c v s s') : s.Persists s' := by
  cases h with
  | scalar hb =>
    refine persists_modify fun b hb' => ?_
    rw [hb] at hb'
    cases hb'
    exact .scalar _ _
  | array hb =>
    refine persists_modify fun b hb' => ?_
    rw [hb] at hb'
    cases hb'
    exact .array _ Array.size_setIfInBounds

theorem locate_persists (s : Store) (name : String) (indexes : List Int) :
    s.Persists (s.locate name indexes).2 := by
  rcases locate_adds s name indexes with heq | ⟨b, hb, -, hadds⟩
  · rw [heq]
    exact .refl s
  · exact hadds.persists hb.sized

theorem dimension_persists {name : String} {bounds : List Int} (h : s.dimension name bounds = .ok s') :
    s.Persists s' :=
  (dimension_adds h).2.persists (.array Array.size_replicate)

theorem set_persists (s : Store) (c : Cell) (v : Value) : s.Persists (s.set c v).2 :=
  set_induct (.refl s) (locate_persists s c.name _) fun _ _ _ hs hputs => hs.trans hputs.persists

/-- All arrays have all their cells. -/
def Sized (s : Store) : Prop := ∀ x b, s.binding? x = some b → b.Sized

theorem Persists.sized_of_sized (h : s.Persists s') (hs : s.Sized) : s'.Sized := by
  intro x b hb
  cases hx : s.binding? x with
  | none => exact h.sized x b hx hb
  | some b₀ =>
    obtain ⟨b', hb', hsimilar⟩ := h.bound x b₀ hx
    rw [hb] at hb'
    cases hb'
    exact hsimilar.sized (hs x b₀ hx)

/-- A cell is there. -/
def Holds (s : Store) (c : Cell) : Prop := ∃ b, s.binding? c.name = some b ∧ b.Admits c.indexes

theorem Persists.holds {c : Cell} (h : s.Persists s') (hc : s.Holds c) : s'.Holds c := by
  obtain ⟨b, hb, hadmits⟩ := hc
  obtain ⟨b', hb', hsimilar⟩ := h.bound c.name b hb
  exact ⟨b', hb', hsimilar.admits hadmits⟩

theorem forall₂_le_of_all {indexes : List Int} {bounds : List Nat}
    (hlength : bounds.length = indexes.length)
    (hall : ((indexes.zip bounds).all fun (i, b) => 0 ≤ i && i ≤ b) = true) :
    (indexes.map Int.toNat).map Int.ofNat = indexes ∧
      List.Forall₂ (· ≤ ·) (indexes.map Int.toNat) bounds := by
  induction indexes generalizing bounds with
  | nil =>
    rw [List.eq_nil_of_length_eq_zero hlength]
    exact ⟨rfl, .nil⟩
  | cons i indexes ih =>
    cases bounds with
    | nil => cases hlength
    | cons b bounds =>
      rw [List.zip_cons_cons, List.all_cons, Bool.and_eq_true] at hall
      obtain ⟨hi, hrest⟩ := hall
      have hi : 0 ≤ i ∧ i ≤ (b : Int) := by simpa using hi
      obtain ⟨hindexes, hle⟩ := ih (Nat.succ.inj hlength) hrest
      refine ⟨?_, .cons (by omega) hle⟩
      rw [List.map_cons, List.map_cons, hindexes]
      exact congrArg (· :: indexes) (Int.toNat_of_nonneg hi.1)

theorem admits_of_cellOf {name : String} {indexes : List Int} {binding : Option Binding} {c : Cell}
    (h : cellOf name indexes binding = .ok c) :
    c.name = name ∧ c.indexes.map Int.ofNat = indexes ∧ ∃ b, binding = some b ∧ b.Admits c.indexes := by
  unfold cellOf at h
  split at h
  · split at h
    · rename_i hempty
      cases h
      exact ⟨rfl, (List.isEmpty_iff.mp hempty).symm, _, rfl, .scalar _⟩
    · cases h
  · rename_i bounds cells
    split at h
    · rename_i hlength
      split at h
      · rename_i hall
        cases h
        obtain ⟨hindexes, hle⟩ := forall₂_le_of_all (beq_iff_eq.mp hlength) hall
        exact ⟨rfl, hindexes, _, rfl, .array cells hle⟩
      · cases h
    · cases h
  · cases h

/-- A cell that was located is there. -/
theorem holds_of_locate {name : String} {indexes : List Int} {c : Cell}
    (h : s.locate name indexes = (.ok c, s')) :
    c.name = name ∧ c.indexes.map Int.ofNat = indexes ∧ s'.Holds c := by
  unfold locate at h
  cases hensure : s.ensure name indexes.length with
  | error e =>
    rw [hensure] at h
    cases h
  | ok s₁ =>
    rw [hensure] at h
    obtain ⟨hcell, rfl⟩ := Prod.mk.inj h
    obtain ⟨hname, hindexes, hb⟩ := admits_of_cellOf hcell
    refine ⟨hname, hindexes, ?_⟩
    rw [Holds, hname]
    exact hb

end Store

end LineBasic
