import Mathlib.Algebra.BigOperators.Group.List.Basic
import Mathlib.Algebra.Order.Ring.Nat
import LineBasic.Memory.Store

/-! What a store binds its names to. The first use of a name adds it to the store, if that has room. A store
grows when names that were not bound are bound as by a first use, to a scalar or to an array at their
first values, and every other name stays as it was. -/

namespace LineBasic

/-- What a name is bound to by its first use. -/
inductive Binding.IsInitial (name : String) : Binding → Prop
  | scalar : IsInitial name (.scalar (if isStringName name then .string "" else .number 0))
  | array (rank : Nat) (h : 0 < rank) :
    IsInitial name (.array (List.replicate rank 10)
      (Array.replicate (11 ^ rank) (if isStringName name then .string "" else .number 0)))

/-- An array has no more cells than the limit allows. -/
def Binding.Limited : Binding → Prop
  | .scalar _ => True
  | .array _ cells => cells.size ≤ Store.maxCells

namespace Store

theorem binding?_insert (s : Store) (name : String) (b : Binding) (x : String) :
    binding? ⟨s.bindings.insert name b⟩ x = if x = name then some b else s.binding? x := by
  simp only [binding?, Std.TreeMap.getElem?_insert, Std.LawfulEqCmp.compare_eq_iff_eq]
  simp only [eq_comm]

theorem binding?_erase (s : Store) (name x : String) :
    binding? ⟨s.bindings.erase name⟩ x = if x = name then none else s.binding? x := by
  simp only [binding?, Std.TreeMap.getElem?_erase, Std.LawfulEqCmp.compare_eq_iff_eq]
  simp only [eq_comm]

theorem binding?_swap (s : Store) (name : String) (b : Option Binding) (x : String) :
    (s.swap name b).2.binding? x = if x = name then b else s.binding? x := by
  cases b with
  | some b => exact binding?_insert s name b x
  | none => exact binding?_erase s name x

theorem fst_swap (s : Store) (name : String) (b : Option Binding) :
    (s.swap name b).1 = s.binding? name := by
  cases b <;> rfl

/-- Names of which `N` holds may be bound anew, as by a first use; every other name stays as it was. -/
def Grows (N : String → Prop) (s s' : Store) : Prop :=
  ∀ x, s'.binding? x = s.binding? x ∨
    s.binding? x = none ∧ N x ∧ ∃ b, s'.binding? x = some b ∧ b.IsInitial x

variable {N M : String → Prop} {s s' s'' : Store}

theorem Grows.refl (s : Store) : Grows N s s := fun _ => .inl rfl

theorem Grows.trans (h : Grows N s s') (h' : Grows N s' s'') : Grows N s s'' := by
  intro x
  rcases h x with heq | ⟨hnone, hN, b, hb, hinit⟩
  · rw [← heq]
    exact h' x
  · rcases h' x with heq' | ⟨hnone', -⟩
    · exact .inr ⟨hnone, hN, b, heq'.trans hb, hinit⟩
    · rw [hb] at hnone'
      cases hnone'

theorem cellCount_eq_prod (bounds : List Nat) : cellCount bounds = (bounds.map (· + 1)).prod := by
  rw [cellCount, List.prod_eq_foldl, List.foldl_map]

theorem cellCount_replicate (rank : Nat) : cellCount (List.replicate rank implicitBound) = 11 ^ rank := by
  rw [cellCount_eq_prod, List.map_replicate, List.prod_replicate]
  rfl

/-- One more name is bound, within the limit on names. -/
structure Adds (name : String) (b : Binding) (s s' : Store) : Prop where
  unbound : s.binding? name = none
  room : s.bindings.size < maxBindings
  eq : s' = ⟨s.bindings.insert name b⟩

theorem bind_adds {name : String} {b : Binding} (hnone : s.binding? name = none)
    (h : s.bind name b = .ok s') : Adds name b s s' := by
  unfold bind at h
  split at h
  · rename_i hroom
    cases h
    exact ⟨hnone, hroom, rfl⟩
  · cases h

/-- Bind a name that was not bound to a new array. -/
theorem bind_newArray_adds {name : String} {bounds : List Nat} (hnone : s.binding? name = none)
    (h : (do s.bind name (← newArray name bounds)) = Except.ok s') :
    cellCount bounds ≤ maxCells ∧
      Adds name (.array bounds (Array.replicate (cellCount bounds) (Value.initial name))) s s' := by
  unfold newArray at h
  split at h
  · rename_i hcells
    exact ⟨hcells, bind_adds hnone h⟩
  · cases h

/-- The first use of a name binds it, and any other use leaves the store as it is. -/
theorem ensure_adds {name : String} {rank : Nat} (h : s.ensure name rank = .ok s') :
    s' = s ∨ ∃ b, b.IsInitial name ∧ b.Limited ∧ Adds name b s s' := by
  unfold ensure at h
  split at h
  · cases h
    exact .inl rfl
  · rename_i hsome
    have hnone : s.binding? name = none := by simpa using hsome
    split at h
    · exact .inr ⟨_, .scalar, trivial, bind_adds hnone h⟩
    · rename_i hrank
      have hpos : 0 < rank := by
        rw [beq_iff_eq] at hrank
        omega
      obtain ⟨hcells, hadds⟩ := bind_newArray_adds hnone h
      rw [cellCount_replicate] at hcells hadds
      refine .inr ⟨_, .array rank hpos, ?_, hadds⟩
      rw [Binding.Limited, Array.size_replicate]
      exact hcells

theorem locate_adds (s : Store) (name : String) (indexes : List Int) :
    (s.locate name indexes).2 = s ∨
      ∃ b, b.IsInitial name ∧ b.Limited ∧ Adds name b s (s.locate name indexes).2 := by
  unfold locate
  cases h : s.ensure name indexes.length with
  | error e => exact .inl rfl
  | ok s' => exact ensure_adds h

theorem Adds.grows {name : String} {b : Binding} (h : Adds name b s s') (hN : N name)
    (hb : b.IsInitial name) : Grows N s s' := by
  intro x
  rw [h.eq, binding?_insert]
  by_cases hx : x = name
  · subst hx
    exact .inr ⟨h.unbound, hN, b, if_pos rfl, hb⟩
  · exact .inl (if_neg hx)

theorem locate_grows {name : String} (hN : N name) (indexes : List Int) :
    Grows N s (s.locate name indexes).2 := by
  rcases locate_adds s name indexes with heq | ⟨b, hb, -, hadds⟩
  · rw [heq]
    exact Grows.refl s
  · exact hadds.grows hN hb

end Store

end LineBasic
