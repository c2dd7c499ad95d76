import LineBasic.Statement.Loop

/-! The frames on the stack. `NEXT` and `FOR` see the loops above the last call; among these no two are
over the same variable, since a loop replaces the one in reach over its variable. -/

namespace LineBasic

namespace Stack

variable {α : Type} {s s' : Stack α} {a : α}

theorem items_push (h : s.push a = .ok s') : s'.items = a :: s.items := by
  rw [push, checkRoom] at h
  split at h <;> cases h
  rfl

theorem size_push (h : s.push a = .ok s') : s'.size ≤ maxSize := by
  rw [push, checkRoom] at h
  split at h
  · rename_i hroom
    cases h
    exact hroom
  · cases h

end Stack

/-- Between two loops over the same variable there is a call. -/
def DistinctLoops (frames : List Frame) : Prop :=
  ∀ (above between below : List Frame) (l l' : Loop),
    frames = above ++ .loop l :: (between ++ .loop l' :: below) → l.var = l'.var →
    ∃ p, Frame.call p ∈ between

theorem DistinctLoops.suffix {frames frames' : List Frame} (h : DistinctLoops frames)
    (hsuffix : frames' <:+ frames) : DistinctLoops frames' := by
  obtain ⟨before, rfl⟩ := hsuffix
  intro above between below l l' hframes
  refine h (before ++ above) between below l l' ?_
  rw [hframes, List.append_assoc]

theorem DistinctLoops.call {frames : List Frame} (h : DistinctLoops frames) (p : Position) :
    DistinctLoops (.call p :: frames) := by
  intro above between below l l' hframes
  cases above with
  | nil => cases hframes
  | cons f above => exact h above between below l l' (List.cons.inj hframes).2

/-- A loop may be put on top if each loop over its variable is below a call. -/
theorem DistinctLoops.loop {frames : List Frame} {l : Loop} (h : DistinctLoops frames)
    (hl : ∀ between below l', frames = between ++ .loop l' :: below → l.var = l'.var →
      ∃ p, Frame.call p ∈ between) : DistinctLoops (.loop l :: frames) := by
  intro above between below l₁ l₂ hframes
  cases above with
  | nil =>
    obtain ⟨hhead, hrest⟩ := List.cons.inj hframes
    cases hhead
    exact hl between below l₂ hrest
  | cons f above => exact h above between below l₁ l₂ (List.cons.inj hframes).2

/-- Of frames above and below one, some of the lowest either still have it or are no more than those
below. -/
theorem suffix_frames {above base frames : List Frame} {f : Frame} (h : frames <:+ above ++ f :: base) :
    (∃ above', frames = above' ++ f :: base ∧ above' <:+ above) ∨ frames.length ≤ base.length := by
  rcases List.suffix_or_suffix_of_suffix h (List.suffix_append above (f :: base)) with hshort | hlong
  · rcases List.suffix_cons_iff.mp hshort with rfl | hbase
    · exact .inl ⟨[], rfl, List.nil_suffix⟩
    · exact .inr hbase.length_le
  · obtain ⟨above', rfl⟩ := hlong
    obtain ⟨dropped, hdropped⟩ := h
    rw [← List.append_assoc] at hdropped
    exact .inl ⟨above', rfl, dropped, List.append_cancel_right hdropped⟩

namespace Statement

theorem findLoop?_suffix {var : Option String} {frames below : List Frame} {l : Loop}
    (h : findLoop? var frames = some (l, below)) : Frame.loop l :: below <:+ frames := by
  induction frames with
  | nil => cases h
  | cons f frames ih =>
    cases f with
    | call p => cases h
    | loop l' =>
      rw [findLoop?] at h
      split at h
      · cases h
        exact List.suffix_refl _
      · exact (ih h).trans (List.suffix_cons _ _)

theorem findLoop?_var {x : String} {frames below : List Frame} {l : Loop}
    (h : findLoop? (some x) frames = some (l, below)) : l.var = x := by
  induction frames with
  | nil => cases h
  | cons f frames ih =>
    cases f with
    | call p => cases h
    | loop l' =>
      rw [findLoop?] at h
      split at h
      · rename_i hvar
        cases h
        exact (beq_iff_eq.mp hvar).symm
      · exact ih h

/-- A loop that is not found is below a call. -/
theorem call_of_findLoop?_none {between below : List Frame} {l : Loop}
    (h : findLoop? (some l.var) (between ++ .loop l :: below) = none) :
    ∃ p, Frame.call p ∈ between := by
  induction between with
  | nil => simp [findLoop?] at h
  | cons f between ih =>
    cases f with
    | call p => exact ⟨p, List.mem_cons_self⟩
    | loop l' =>
      rw [List.cons_append, findLoop?] at h
      split at h
      · cases h
      · obtain ⟨p, hp⟩ := ih h
        exact ⟨p, List.mem_cons_of_mem _ hp⟩

/-- A loop that is found is above the last call. -/
theorem findLoop?_above {var : Option String} {above base below : List Frame} {p : Position} {l : Loop}
    (h : findLoop? var (above ++ .call p :: base) = some (l, below)) :
    ∃ above', below = above' ++ .call p :: base ∧ Frame.loop l :: above' <:+ above := by
  induction above with
  | nil => cases h
  | cons f above ih =>
    cases f with
    | call q => cases h
    | loop l' =>
      rw [List.cons_append, findLoop?] at h
      split at h
      · cases h
        exact ⟨above, rfl, List.suffix_refl _⟩
      · obtain ⟨above', hbelow, hsuffix⟩ := ih h
        exact ⟨above', hbelow, hsuffix.trans (List.suffix_cons _ _)⟩

/-- A loop opens above the last call. -/
theorem openLoop_above {stack stack' : Stack Frame} {l : Loop} {above base : List Frame} {p : Position}
    (h : openLoop stack l = .ok stack') (hs : stack.items = above ++ .call p :: base) :
    ∃ above', stack'.items = .loop l :: (above' ++ .call p :: base) ∧ above' <:+ above := by
  rw [openLoop, hs] at h
  cases hfind : findLoop? (some l.var) (above ++ .call p :: base) with
  | none =>
    rw [hfind] at h
    exact ⟨above, Stack.items_push h, List.suffix_refl _⟩
  | some found =>
    obtain ⟨old, below⟩ := found
    rw [hfind] at h
    obtain ⟨above', rfl, hsuffix⟩ := findLoop?_above hfind
    exact ⟨above', Stack.items_push h, (List.suffix_cons _ _).trans hsuffix⟩

/-- What is on the stack when a loop was opened: that loop, and below it frames that were there. -/
theorem openLoop_items {stack stack' : Stack Frame} {l : Loop} (h : openLoop stack l = .ok stack') :
    ∃ below, stack'.items = .loop l :: below ∧ below <:+ stack.items := by
  rw [openLoop] at h
  refine ⟨_, Stack.items_push h, ?_⟩
  cases hfind : findLoop? (some l.var) stack.items with
  | none => exact List.suffix_refl _
  | some found => exact (List.suffix_cons _ _).trans (findLoop?_suffix hfind)

theorem openLoop_distinct {stack stack' : Stack Frame} {l : Loop} (h : openLoop stack l = .ok stack')
    (hstack : DistinctLoops stack.items) : DistinctLoops stack'.items := by
  rw [openLoop] at h
  rw [Stack.items_push h]
  cases hfind : findLoop? (some l.var) stack.items with
  | none =>
    refine hstack.loop fun between below l' hframes hvar => ?_
    rw [hframes, hvar] at hfind
    exact call_of_findLoop?_none hfind
  | some found =>
    obtain ⟨old, below⟩ := found
    have hold : DistinctLoops (.loop old :: below) := hstack.suffix (findLoop?_suffix hfind)
    refine DistinctLoops.loop (hold.suffix (List.suffix_cons _ _)) fun between rest l' hframes hvar => ?_
    -- the loop that is replaced was over the same variable
    refine hold [] between rest old l' ?_ ((findLoop?_var hfind).trans hvar)
    rw [← hframes]
    rfl

end Statement

end LineBasic
