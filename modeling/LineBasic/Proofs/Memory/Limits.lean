import LineBasic.Proofs.Memory.Shapes

/-! The limits that a store keeps to: on the number of names, on the cells of an array, and on what a
variable holds. While a function is evaluated, its parameters may be bound beyond the limit on names;
so what evaluation keeps is not the limit itself but that only within it a name is bound anew. -/

namespace LineBasic

/-- A variable of this name may hold the value. -/
inductive Value.Fits (name : String) : Value → Prop
  | number (x : Float) (h : isStringName name = false) : Fits name (.number x)
  | string (t : String) (h : isStringName name = true) (hlength : t.length ≤ 255) : Fits name (.string t)

/-- Every value fits the name, and an array has all its cells within the limit. -/
inductive Binding.Fits (name : String) : Binding → Prop
  | scalar {v : Value} (h : v.Fits name) : Fits name (.scalar v)
  | array {bounds : List Nat} {cells : Array Value} (hrank : bounds ≠ [])
    (hsize : cells.size = (bounds.map (· + 1)).prod) (hlimit : cells.size ≤ 2 ^ 20)
    (h : ∀ v ∈ cells, v.Fits name) : Fits name (.array bounds cells)

theorem Value.initial_fits (name : String) : (Value.initial name).Fits name := by
  rw [Value.initial]
  split
  · rename_i h
    exact .string "" h (by decide)
  · rename_i h
    exact .number 0 (by simpa using h)

theorem Binding.fits_replicate {name : String} {bounds : List Nat} (hrank : bounds ≠ [])
    (hlimit : Store.cellCount bounds ≤ Store.maxCells) :
    Fits name (.array bounds (Array.replicate (Store.cellCount bounds) (Value.initial name))) := by
  refine .array hrank ?_ ?_ fun v hv => ?_
  · rw [Array.size_replicate, Store.cellCount_eq_prod]
  · rw [Array.size_replicate]
    exact hlimit
  · rw [(Array.mem_replicate.mp hv).2]
    exact Value.initial_fits name

theorem Binding.IsInitial.fits {name : String} {b : Binding} (h : b.IsInitial name)
    (hlimit : b.Limited) : b.Fits name := by
  cases h with
  | scalar => exact .scalar (Value.initial_fits name)
  | array rank hrank =>
    rw [Limited, Array.size_replicate, ← Store.cellCount_replicate] at hlimit
    rw [← Store.cellCount_replicate]
    exact fits_replicate (by simpa using hrank.ne') hlimit

namespace Store

variable {s s' s'' : Store}

/-- At most 65535 names, each bound to what fits it. -/
structure WellFormed (s : Store) : Prop where
  names : s.bindings.size ≤ 65535
  fits : ∀ x b, s.binding? x = some b → b.Fits x

theorem wellFormed_empty : empty.WellFormed := ⟨Nat.zero_le _, nofun⟩

/-! ## The number of names -/

theorem size_le_of_binding? (h : ∀ x, s.binding? x = none → s'.binding? x = none) :
    s'.bindings.size ≤ s.bindings.size := by
  rw [← Std.TreeMap.length_keys, ← Std.TreeMap.length_keys]
  refine Std.TreeMap.nodup_keys.length_le_of_subset fun x hx => ?_
  rw [Std.TreeMap.mem_keys, Std.TreeMap.mem_iff_isSome_getElem?] at hx ⊢
  cases hsome : s.bindings[x]? with
  | some b => rfl
  | none =>
    have hnone : s'.bindings[x]? = none := h x hsome
    rw [hnone] at hx
    cases hx

/-- Where names are bound anew, there are no more than the limit allows; and so it is with the cells of
arrays that are. -/
structure Fills (s s' : Store) : Prop where
  names : (∀ x, s.binding? x = none → s'.binding? x = none) ∨ s'.bindings.size ≤ maxBindings
  cells : ∀ x b, s'.binding? x = some b → s.binding? x = some b ∨ b.Limited

theorem Fills.refl (s : Store) : s.Fills s := ⟨.inl fun _ h => h, fun _ _ h => .inl h⟩

theorem Fills.trans (h : s.Fills s') (h' : s'.Fills s'') : s.Fills s'' := by
  refine ⟨?_, fun x b hx => ?_⟩
  · rcases h'.names with hsame' | hsize'
    · rcases h.names with hsame | hsize
      · exact .inl fun x hx => hsame' x (hsame x hx)
      · exact .inr (Nat.le_trans (size_le_of_binding? hsame') hsize)
    · exact .inr hsize'
  · rcases h'.cells x b hx with hx' | hlimit
    · exact h.cells x b hx'
    · exact .inr hlimit

theorem Adds.size_le {name : String} {b : Binding} (h : Adds name b s s') :
    s'.bindings.size ≤ maxBindings := by
  obtain ⟨-, hroom, rfl⟩ := h
  rw [Std.TreeMap.size_insert]
  split <;> omega

theorem locate_fills (s : Store) (name : String) (indexes : List Int) :
    s.Fills (s.locate name indexes).2 := by
  rcases locate_adds s name indexes with heq | ⟨b, -, hlimit, hadds⟩
  · rw [heq]
    exact .refl s
  · refine ⟨.inr hadds.size_le, fun x b' hx => ?_⟩
    rw [hadds.eq, binding?_insert] at hx
    split at hx
    · cases hx
      exact .inr hlimit
    · exact .inl hx

/-! ## Well-formed stores stay so -/

theorem wellFormed_of_grows {N : String → Prop} (hgrows : s.Grows N s') (hfills : s.Fills s')
    (hs : s.WellFormed) : s'.WellFormed := by
  refine ⟨?_, fun x b hb => ?_⟩
  · rcases hfills.names with hsame | hsize
    · exact Nat.le_trans (size_le_of_binding? hsame) hs.names
    · exact hsize
  · rcases hgrows x with heq | ⟨hnone, -, b', hb', hinitial⟩
    · exact hs.fits x b (heq ▸ hb)
    · rw [hb] at hb'
      cases hb'
      refine hinitial.fits ((hfills.cells x b hb).resolve_left fun hx => ?_)
      rw [hnone] at hx
      cases hx

theorem Adds.wellFormed {name : String} {b : Binding} (h : Adds name b s s') (hb : b.Fits name)
    (hs : s.WellFormed) : s'.WellFormed := by
  refine ⟨h.size_le, fun x b' hx => ?_⟩
  rw [h.eq, binding?_insert] at hx
  split at hx
  · rename_i hname
    cases hx
    exact hname ▸ hb
  · exact hs.fits x b' hx

theorem wellFormed_modify {name : String} {f : Binding → Binding} (hs : s.WellFormed)
    (hf : ∀ b, s.binding? name = some b → (f b).Fits name) :
    WellFormed ⟨s.bindings.modify name f⟩ := by
  refine ⟨?_, fun x b hb => ?_⟩
  · rw [Std.TreeMap.size_modify]
    exact hs.names
  · rw [binding?_modify] at hb
    split at hb
    · rename_i hname
      subst hname
      obtain ⟨b₀, hb₀, rfl⟩ := Option.map_eq_some_iff.mp hb
      exact hf b₀ hb₀
    · exact hs.fits x b hb

theorem Puts.wellFormed {c : Cell} {v : Value} (h : Puts c v s s') (hv : v.Fits c.name)
    (hs : s.WellFormed) : s'.WellFormed := by
  cases h with
  | scalar => exact wellFormed_modify hs fun b _ => .scalar hv
  | @array bounds cells i hb =>
    refine wellFormed_modify hs fun b hb' => ?_
    rw [hb] at hb'
    cases hb'
    cases hs.fits _ _ hb with
    | array hrank hsize hlimit hcells =>
      have hsame : (cells.setIfInBounds i v).size = cells.size := Array.size_setIfInBounds
      refine .array hrank (hsame.trans hsize) (hsame.trans_le hlimit) fun u hu => ?_
      rcases Array.mem_or_eq_of_mem_setIfInBounds hu with hu | rfl
      · exact hcells u hu
      · exact hv

theorem fits_of_conform {name : String} {v : Value} (h : conform name v = .ok v) : v.Fits name := by
  unfold conform at h
  split at h
  · rename_i htype
    cases v with
    | number x => exact .number x (beq_iff_eq.mp htype).symm
    | string t =>
      simp only [Value.ofString] at h
      split at h
      · rename_i hlength
        exact .string t (beq_iff_eq.mp htype).symm hlength
      · cases h
  · cases h

/-- What is bound stays bound alike, and what is well-formed stays so. -/
structure Develops (s s' : Store) : Prop where
  persists : s.Persists s'
  wellFormed : s.WellFormed → s'.WellFormed

theorem Develops.refl (s : Store) : s.Develops s := ⟨.refl s, id⟩

theorem Develops.trans (h : s.Develops s') (h' : s'.Develops s'') : s.Develops s'' :=
  ⟨h.persists.trans h'.persists, h'.wellFormed ∘ h.wellFormed⟩

theorem Grows.persists {N : String → Prop} (h : s.Grows N s') : s.Persists s' := by
  refine ⟨fun x b hb => ?_, fun x b hnone hb => ?_⟩
  · rcases h x with heq | ⟨hnone, -⟩
    · exact ⟨b, heq.trans hb, .refl b⟩
    · rw [hnone] at hb
      cases hb
  · rcases h x with heq | ⟨-, -, b', hb', hinitial⟩
    · rw [heq, hnone] at hb
      cases hb
    · rw [hb] at hb'
      cases hb'
      exact hinitial.sized

theorem develops_of_grows {N : String → Prop} (hgrows : s.Grows N s') (hfills : s.Fills s') :
    s.Develops s' :=
  ⟨hgrows.persists, wellFormed_of_grows hgrows hfills⟩

theorem locate_develops (s : Store) (name : String) (indexes : List Int) :
    s.Develops (s.locate name indexes).2 :=
  develops_of_grows (locate_grows (N := (· = name)) rfl indexes) (locate_fills s name indexes)

theorem dimension_develops {name : String} {bounds : List Int} (hrank : bounds ≠ [])
    (h : s.dimension name bounds = .ok s') : s.Develops s' := by
  obtain ⟨hcells, hadds⟩ := dimension_adds h
  exact ⟨dimension_persists h, hadds.wellFormed (Binding.fits_replicate (by simpa using hrank) hcells)⟩

theorem set_develops (s : Store) (c : Cell) (v : Value) : s.Develops (s.set c v).2 := by
  refine ⟨set_persists s c v, fun hs => ?_⟩
  refine set_induct hs ((locate_develops s c.name _).wellFormed hs) fun hv _ _ hs hputs => ?_
  exact hputs.wellFormed (fits_of_conform hv) hs

theorem WellFormed.sized (hs : s.WellFormed) : s.Sized := by
  intro x b hb
  cases hs.fits x b hb with
  | scalar => exact .scalar _
  | array _ hsize => exact .array (hsize.trans (cellCount_eq_prod _).symm)

/-- In a well-formed store a cell without subscripts that is there is a scalar. -/
theorem WellFormed.scalar_of_holds {name : String} (hs : s.WellFormed) (h : s.Holds ⟨name, []⟩) :
    ∃ v : Value, s.binding? name = some (.scalar v) ∧ v.Fits name := by
  obtain ⟨b, hb, hadmits⟩ := h
  have hfits := hs.fits name b hb
  cases hfits with
  | scalar hv => exact ⟨_, hb, hv⟩
  | array hrank =>
    cases hadmits with
    | array _ hle =>
      cases hle
      exact absurd rfl hrank

end Store

end LineBasic
