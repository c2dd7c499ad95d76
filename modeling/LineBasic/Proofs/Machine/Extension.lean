import LineBasic.Machine.State
import LineBasic.Proofs.Expression.Run

/-! The same computation on a longer line. What runs to its end on some tokens does the same where more
tokens follow, as long as it would not have read on: it gives the same result, passes the same tokens
and leaves the same state. The two computations are given apart, since what bounds a loop by the tokens
left is larger on the longer line. -/

namespace LineBasic

/-- What decides whether and where a run goes on. -/
structure Control where
  running : Bool
  line : Option Nat
  breakRequested : Bool
  inquiry : Option Inquiry
  program : Listing

/-- A state in which a cursor moves along a line. -/
class Cursored (σ : Type) where
  cursor : σ → Cursor
  /-- The same state elsewhere: with another cursor, and the statement starting at another place. -/
  place : σ → Cursor → Position → σ
  /-- A part of the state that no computation on the line may change. -/
  Fixed : Type
  fixed : σ → Fixed
  cursor_place : ∀ s c p, cursor (place s c p) = c

open Cursored

instance : Cursored Workspace where
  cursor w := w.cursor
  place w c _ := { w with cursor := c }
  Fixed := Unit
  fixed _ := ()
  cursor_place _ _ _ := rfl

instance : Cursored Machine where
  cursor m := m.cursor
  place m c p := { m with cursor := c, statement := p }
  Fixed := Control
  fixed m := ⟨m.running, m.line, m.breakRequested, m.inquiry, m.program⟩
  cursor_place _ _ _ := rfl

/-- Where at most `n` tokens are left, `x` run to its end leaves at most `left` of them, and `y` does the
same before the tokens of `suffix`. -/
def Extends {σ α : Type} [Cursored σ] (suffix : List Token) (n : Nat) (left : α → Nat)
    (x y : ExceptT Condition (StateM σ) α) : Prop :=
  ∀ s a s', (cursor s).rest.length ≤ n → x s = (.ok a, s') →
    fixed s' = fixed s ∧ (cursor s').rest.length ≤ left a ∧
    ∃ taken, (cursor s).rest = taken ++ (cursor s').rest ∧ ∀ passed p,
      y (place s ⟨passed, (cursor s).rest ++ suffix⟩ p) =
        (.ok a, place s' ⟨taken.reverse ++ passed, (cursor s').rest ++ suffix⟩ p)

namespace Extends

variable {σ α β ι : Type} [Cursored σ] {suffix : List Token} {n k : Nat} {left : α → Nat}
  {last : β → Nat} {x y : ExceptT Condition (StateM σ) α} {f g : α → ExceptT Condition (StateM σ) β}

theorem pure (a : α) :
    Extends suffix n (fun _ => n) (pure a : ExceptT Condition (StateM σ) α) (pure a) := by
  intro s b s' hn h
  cases h
  exact ⟨rfl, hn, [], rfl, fun passed p => rfl⟩

theorem throw (e : Condition) : Extends suffix n left (throw e) y := by
  intro s b s' hn h
  cases h

theorem lift (r : Except Condition α) :
    Extends suffix n (fun _ => n) (liftM r : ExceptT Condition (StateM σ) α) (liftM r) := by
  cases r with
  | ok a => exact pure a
  | error e => exact throw e

theorem bind (hx : Extends suffix n left x y) (hf : ∀ a, Extends suffix (left a) last (f a) (g a)) :
    Extends suffix n last (x >>= f) (y >>= g) := by
  intro s b s'' hn h
  obtain ⟨a, s', hxs, hfs⟩ := bind_eq_ok h
  obtain ⟨hfixed, hleft, taken, htaken, hy⟩ := hx s a s' hn hxs
  obtain ⟨hfixed', hlast, taken', htaken', hg⟩ := hf a s' b s'' hleft hfs
  refine ⟨hfixed'.trans hfixed, hlast, taken ++ taken', ?_, fun passed p => ?_⟩
  · rw [List.append_assoc, ← htaken', htaken]
  · rw [bind_of_ok (hy passed p), hg, List.reverse_append, List.append_assoc]

theorem mono {left' : α → Nat} (hx : Extends suffix n left x y) (hk : k ≤ n)
    (hleft : ∀ a, left a ≤ left' a) : Extends suffix k left' x y := by
  intro s a s' hn h
  obtain ⟨hfixed, hrest, htaken⟩ := hx s a s' (Nat.le_trans hn hk) h
  exact ⟨hfixed, Nat.le_trans hrest (hleft a), htaken⟩

/-- What passes a whole line passes it before `suffix` too, and stops there. -/
theorem whole {left : Nat → α → Nat} (hx : ∀ n, Extends suffix n (left n) x y) {s s' : σ} {a : α}
    (h : x s = (.ok a, s')) (hend : (cursor s').rest = []) : fixed s' = fixed s ∧ ∀ passed p,
      y (place s ⟨passed, (cursor s).rest ++ suffix⟩ p) =
        (.ok a, place s' ⟨(cursor s).rest.reverse ++ passed, suffix⟩ p) := by
  obtain ⟨hfixed, -, taken, htaken, hy⟩ := hx _ s a s' (Nat.le_refl _) h
  rw [hend, List.append_nil] at htaken
  refine ⟨hfixed, fun passed p => ?_⟩
  rw [hy, hend, htaken, List.nil_append]

/-- What neither looks at the line nor moves on it. -/
theorem still (hcursor : ∀ s, cursor (x s).2 = cursor s) (hfixed : ∀ s, fixed (x s).2 = fixed s)
    (hplace : ∀ s c p, x (place s c p) = ((x s).1, place (x s).2 c p)) :
    Extends suffix n (fun _ => n) x x := by
  intro s a s' hn h
  have hc := hcursor s
  have hf := hfixed s
  rw [h] at hc hf
  refine ⟨hf, by rw [hc]; exact hn, [], by rw [hc]; rfl, fun passed p => ?_⟩
  rw [hplace, h, hc]
  rfl

/-- A token passed need not be counted. -/
theorem weaken (hx : Extends suffix n (fun _ => n - 1) x y) : Extends suffix n (fun _ => n) x y :=
  hx.mono (Nat.le_refl n) fun _ => Nat.sub_le n 1

/-- What does not depend on the place may be read. -/
theorem view (view : σ → ι) (hview : ∀ s c p, view (place s c p) = view s)
    {f g : ι → ExceptT Condition (StateM σ) β} (h : ∀ i, Extends suffix n last (f i) (g i)) :
    Extends suffix n last (get >>= fun s => f (view s)) (get >>= fun s => g (view s)) := by
  intro s b s' hn hs
  obtain ⟨hfixed, hlast, taken, htaken, hg⟩ := h (view s) s b s' hn hs
  refine ⟨hfixed, hlast, taken, htaken, fun passed p => ?_⟩
  rw [← hg passed p, ← hview s _ p]
  rfl

/-- A bound taken from the tokens left. -/
theorem bounded {count : ExceptT Condition (StateM σ) Nat}
    (hcount : ∀ s, count s = (.ok (cursor s).rest.length, s))
    {f g : Nat → ExceptT Condition (StateM σ) β} {last : Nat → Nat}
    (hlast : ∀ {a b}, a ≤ b → last a ≤ last b)
    (h : ∀ n, Extends suffix n (fun _ => last n) (f n) (g (n + suffix.length))) :
    Extends suffix n (fun _ => last n) (count >>= f) (count >>= g) := by
  intro s b s' hn hs
  rw [bind_of_ok (hcount s)] at hs
  obtain ⟨hfixed, hleft, taken, htaken, hg⟩ := h _ s b s' (Nat.le_refl _) hs
  refine ⟨hfixed, Nat.le_trans hleft (hlast hn), taken, htaken, fun passed p => ?_⟩
  rw [bind_of_ok (hcount _), cursor_place, List.length_append]
  exact hg passed p

/-- Where nothing is left, both give the same and do nothing. -/
theorem at_end {a : α} (hx : ∀ s, (cursor s).rest = [] → x s = (.ok a, s))
    (hy : ∀ s passed p, (cursor s).rest = [] →
      y (place s ⟨passed, suffix⟩ p) = (.ok a, place s ⟨passed, suffix⟩ p)) :
    Extends suffix 0 (fun _ => 0) x y := by
  intro s b s' hn h
  have hend : (cursor s).rest = [] := List.eq_nil_of_length_eq_zero (Nat.le_zero.mp hn)
  rw [hx s hend] at h
  cases h
  refine ⟨rfl, hn, [], rfl, fun passed p => ?_⟩
  rw [hend]
  exact hy s passed p hend

variable {separator : ExceptT Condition (StateM σ) Bool} {m m' : Nat}

/-- The items after the first. -/
def further (separator : ExceptT Condition (StateM σ) Bool) (x : ExceptT Condition (StateM σ) α) :
    Nat → α → ExceptT Condition (StateM σ) (List α)
  | 0, a => return [a]
  | n + 1, a => do
    if ← separator then return a :: (← LineBasic.separated separator x n) else return [a]

omit [Cursored σ] in
theorem separated_eq (m : Nat) :
    LineBasic.separated separator x m = x >>= further separator x m := by
  cases m <;> rfl

omit [Cursored σ] in
theorem further_at_end {s : σ} (hs : separator s = (.ok false, s)) (m : Nat) (a : α) :
    further separator x m a s = (.ok [a], s) := by
  cases m with
  | zero => rfl
  | succ m => exact bind_of_ok hs

/-- Items with separators between them. -/
theorem separated
    (hsep : ∀ n, Extends suffix n (fun more => if more then n - 1 else n) separator separator)
    (hend : ∀ s, (cursor s).rest = [] → separator s = (.ok false, s))
    (hitem : ∀ n, Extends suffix n (fun _ => n) x y) (hm : n ≤ m) (hm' : n + suffix.length ≤ m') :
    Extends suffix n (fun _ => n) (separated separator x m) (separated separator y m') := by
  induction n generalizing m m' with
  | zero =>
    rw [separated_eq, separated_eq]
    refine (hitem 0).bind fun a => at_end (fun s hs => further_at_end (hend s hs) m a) ?_
    intro s passed p hs
    obtain ⟨-, -, taken, htaken, hsuffix⟩ := hsep 0 s false s (by simp [hs]) (hend s hs)
    have hnil : taken = [] := by simpa [hs] using htaken
    have hat := hsuffix passed p
    rw [hs, hnil] at hat
    exact further_at_end hat m' a
  | succ n ih =>
    obtain ⟨m, rfl⟩ : ∃ k, m = k + 1 := ⟨m - 1, by omega⟩
    obtain ⟨m', rfl⟩ : ∃ k, m' = k + 1 := ⟨m' - 1, by omega⟩
    refine (hitem _).bind fun a => (hsep _).bind fun more => ?_
    cases more with
    | true =>
      have hm : n ≤ m := by omega
      have hm' : n + suffix.length ≤ m' := by omega
      have htail := (ih hm hm').bind fun as => pure (a :: as)
      exact htail.mono (Nat.le_refl _) fun _ => Nat.le_succ n
    | false => exact pure [a]

end Extends

end LineBasic
