import Mathlib.Data.List.Nodup
import LineBasic.Token.Keyword

/-! The longest spelling at the start of a text. The table is searched from the longest entry down, so
what is found is the longest entry that fits, and equal spellings have equal tokens. From this follows
what a listing relies on: a keyword followed by a character that no longer spelling goes on with is read
back as itself. -/

namespace LineBasic.Keyword

theorem mem_longestFirst_length : ∀ k ∈ longestFirst, k.1.length ≤ maxLength := by decide +kernel

theorem longestFirst_falling :
    longestFirst.Pairwise fun a b => b.1.length ≤ a.1.length := by decide +kernel

theorem longestFirst_nodup : (longestFirst.map (·.1)).Nodup := by decide +kernel

/-- Only the first characters of a text can take part in a spelling. -/
theorem fits_iff {k : List Char × Token} (hk : k ∈ longestFirst) (s : List Char) :
    k.1.isPrefixOf ((s.take maxLength).map Char.toUpper) = true ↔ k.1 <+: s.map Char.toUpper := by
  rw [List.isPrefixOf_iff_prefix, List.map_take, List.prefix_take_iff]
  exact and_iff_left (mem_longestFirst_length k hk)

/-- What is found is in the table, fits, and is no shorter than anything that fits. -/
theorem longest?_sound {s : List Char} {n : Nat} {t : Token} (h : longest? s = some (n, t)) :
    ∃ k, (k, t) ∈ longestFirst ∧ k.length = n ∧ k <+: s.map Char.toUpper ∧
      ∀ k' ∈ longestFirst, k'.1 <+: s.map Char.toUpper → k'.1.length ≤ n := by
  obtain ⟨⟨k, t'⟩, hk, heq⟩ := Option.map_eq_some_iff.mp h
  have hmem := List.mem_of_find?_eq_some hk
  obtain ⟨hfit, before, after, hsplit, hbefore⟩ := List.find?_eq_some_iff_append.mp hk
  simp only [Prod.mk.injEq] at heq
  obtain ⟨rfl, rfl⟩ := heq
  refine ⟨k, hmem, rfl, (fits_iff hmem s).mp hfit, fun k' hk' hfit' => ?_⟩
  have hfall := longestFirst_falling
  rw [hsplit] at hk' hfall
  rcases List.mem_append.mp hk' with hin | hin
  · -- an entry passed over does not fit
    have hno := hbefore k' hin
    have hk' : k' ∈ longestFirst := hsplit ▸ List.mem_append_left _ hin
    rw [(fits_iff hk' s).mpr hfit'] at hno
    cases hno
  · rcases List.mem_cons.mp hin with rfl | hin
    · exact Nat.le_refl _
    · exact (List.pairwise_cons.mp (List.pairwise_append.mp hfall).2.1).1 k' hin

theorem longest?_eq_none {s : List Char} :
    longest? s = none ↔ ∀ k ∈ longestFirst, ¬ k.1 <+: s.map Char.toUpper := by
  simp only [longest?, Option.map_eq_none_iff, List.find?_eq_none]
  constructor
  · intro h k hk hfit
    exact h k hk ((fits_iff hk s).mpr hfit)
  · intro h k hk hfit
    exact h k hk ((fits_iff hk s).mp hfit)

/-- The longest entry that fits is the one found. -/
theorem longest?_of_fits {s k : List Char} {t : Token} (hk : (k, t) ∈ longestFirst)
    (hfit : k <+: s.map Char.toUpper)
    (hmax : ∀ k' ∈ longestFirst, k'.1 <+: s.map Char.toUpper → k'.1.length ≤ k.length) :
    longest? s = some (k.length, t) := by
  cases h : longest? s with
  | none => exact absurd hfit (longest?_eq_none.mp h (k, t) hk)
  | some r =>
    obtain ⟨n, t'⟩ := r
    obtain ⟨k', hk', rfl, hfit', hmax'⟩ := longest?_sound h
    have hlen : k'.length = k.length :=
      Nat.le_antisymm (hmax _ hk' hfit') (hmax' _ hk hfit)
    have hkk : k' = k := by
      have hpre := List.prefix_of_prefix_length_le hfit' hfit (Nat.le_of_eq hlen)
      exact hpre.eq_of_length hlen
    have heq := List.inj_on_of_nodup_map longestFirst_nodup hk' hk hkk
    rw [hlen, (Prod.mk.inj heq).2]

/-! ### Reading a listed keyword -/

/-- The characters with which some longer spelling goes on after that of a token. -/
def extenders (t : Token) : List Char :=
  longestFirst.filterMap fun k =>
    if t.text.toList.isPrefixOf k.1 then k.1[t.text.toList.length]? else none

theorem text_mem : ∀ t ∈ tokens, (t.text.toList, t) ∈ longestFirst := by decide +kernel

theorem text_upper : ∀ t ∈ tokens, t.text.toList.map Char.toUpper = t.text.toList := by
  decide +kernel

/-- A listed keyword is read back unless the text after it goes on with a longer spelling. -/
theorem longest?_text_append {t : Token} (ht : t ∈ tokens) {rest : List Char}
    (hrest : ∀ c ∈ rest.head?, c.toUpper ∉ extenders t) :
    longest? (t.text.toList ++ rest) = some (t.text.toList.length, t) := by
  have hmap : (t.text.toList ++ rest).map Char.toUpper =
      t.text.toList ++ rest.map Char.toUpper := by rw [List.map_append, text_upper t ht]
  apply longest?_of_fits (text_mem t ht)
  · rw [hmap]
    exact List.prefix_append ..
  · intro k hk hfit
    rw [hmap] at hfit
    by_contra hlong
    have hpre : t.text.toList <+: k.1 :=
      List.prefix_of_prefix_length_le (List.prefix_append ..) hfit (by omega)
    obtain ⟨more, hmore⟩ := hpre
    rw [← hmore, List.prefix_append_right_inj] at hfit
    cases more with
    | nil => simp [← hmore] at hlong
    | cons d more =>
      cases rest with
      | nil => simp at hfit
      | cons c rest =>
        have hd : d = c.toUpper := (List.cons_prefix_cons.mp hfit).1
        apply hrest c (by simp)
        refine List.mem_filterMap.mpr ⟨k, hk, ?_⟩
        rw [if_pos (List.isPrefixOf_iff_prefix.mpr ⟨_, hmore⟩), ← hmore, ← hd]
        simp

theorem longest?_text_append_of_extenders_eq_nil {t : Token} (ht : t ∈ tokens)
    (h : extenders t = []) (rest : List Char) :
    longest? (t.text.toList ++ rest) = some (t.text.toList.length, t) :=
  longest?_text_append ht fun c _ => by simp [h]

end LineBasic.Keyword
