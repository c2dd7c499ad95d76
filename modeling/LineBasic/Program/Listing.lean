import LineBasic.Program.Line

/-! The program: numbered lines in ascending order, each with at least one token. A listing is
determined by the lines it holds, since their order is. -/

namespace LineBasic

structure ProgramLine where
  number : Nat
  tokens : List Token
  deriving DecidableEq, Repr

def ProgramLine.text (l : ProgramLine) : String := Line.text ⟨some l.number, l.tokens⟩

structure Listing where
  lines : List ProgramLine := []
  ascending : lines.Pairwise (·.number < ·.number) := by exact .nil
  inhabited : ∀ l ∈ lines, l.tokens ≠ [] := by simp

namespace Listing

def empty : Listing := {}

def isEmpty (p : Listing) : Bool := p.lines.isEmpty

def insertLine (l : ProgramLine) : List ProgramLine → List ProgramLine
  | [] => [l]
  | x :: xs =>
    if l.number < x.number then l :: x :: xs
    else if l.number = x.number then l :: xs
    else x :: insertLine l xs

theorem mem_insertLine {l m : ProgramLine} {xs : List ProgramLine} (h : m ∈ insertLine l xs) :
    m = l ∨ m ∈ xs := by
  induction xs with
  | nil => exact .inl (by simpa [insertLine] using h)
  | cons x xs ih =>
    simp only [insertLine] at h
    split at h
    · simpa using h
    · split at h
      · rcases List.mem_cons.mp h with h | h
        · exact .inl h
        · exact .inr (List.mem_cons_of_mem _ h)
      · rcases List.mem_cons.mp h with h | h
        · exact .inr (h ▸ List.mem_cons_self)
        · exact (ih h).imp_right (List.mem_cons_of_mem _)

theorem pairwise_insertLine (l : ProgramLine) {xs : List ProgramLine}
    (h : xs.Pairwise (·.number < ·.number)) : (insertLine l xs).Pairwise (·.number < ·.number) := by
  induction xs with
  | nil => simp [insertLine]
  | cons x xs ih =>
    obtain ⟨hx, hxs⟩ := List.pairwise_cons.mp h
    simp only [insertLine]
    split
    · rename_i hlt
      refine List.pairwise_cons.mpr ⟨fun y hy => ?_, h⟩
      rcases List.mem_cons.mp hy with rfl | hy
      · exact hlt
      · exact Nat.lt_trans hlt (hx y hy)
    · split
      · rename_i heq
        exact List.pairwise_cons.mpr ⟨fun y hy => heq ▸ hx y hy, hxs⟩
      · refine List.pairwise_cons.mpr ⟨fun y hy => ?_, ih hxs⟩
        rcases mem_insertLine hy with rfl | hy
        · omega
        · exact hx y hy

/-- The lines that pass a test. -/
def filter (p : Listing) (test : ProgramLine → Bool) : Listing where
  lines := p.lines.filter test
  ascending := p.ascending.filter test
  inhabited l h := p.inhabited l (List.mem_filter.mp h).1

/-- Store a line in place of the one with its number, if any. -/
def insert (p : Listing) (l : ProgramLine) (h : l.tokens ≠ []) : Listing where
  lines := insertLine l p.lines
  ascending := pairwise_insertLine l p.ascending
  inhabited m hm := (mem_insertLine hm).elim (fun e => e ▸ h) (p.inhabited m)

def erase (p : Listing) (n : Nat) : Listing := p.filter (·.number != n)

/-- Store a line under its number. A number without tokens deletes the line, and a direct line leaves
the program alone. -/
def enter (p : Listing) (l : Line) : Listing :=
  match l.number with
  | none => p
  | some n => if h : l.tokens = [] then p.erase n else p.insert ⟨n, l.tokens⟩ h

def within (start stop : Nat) (l : ProgramLine) : Bool := start ≤ l.number && l.number ≤ stop

/-- Delete the lines from `start` to `stop`. -/
def delete (p : Listing) (start stop : Nat) : Listing := p.filter (!within start stop ·)

def get? (p : Listing) (n : Nat) : Option ProgramLine := p.lines.find? (·.number == n)

def get (p : Listing) (n : Nat) : Except Condition ProgramLine :=
  match p.get? n with
  | some l => .ok l
  | none => .error (.of .undefinedStatement)

def first? (p : Listing) : Option ProgramLine := p.lines.head?

/-- The first line after number `n`, whether or not there is a line `n`. -/
def next? (p : Listing) (n : Nat) : Option ProgramLine := p.lines.find? (n < ·.number)

def atOrAfter? (p : Listing) (n : Nat) : Option ProgramLine := p.lines.find? (n ≤ ·.number)

/-- The text of the lines from `start` to `stop`. -/
def list (p : Listing) (start stop : Nat) : List String :=
  (p.lines.filter (within start stop)).map ProgramLine.text

/-- Enter the lines of a text. Blank lines are skipped; any other has to carry a number. -/
def enterLines (p : Listing) : List (List Char) → Except Condition Listing
  | [] => .ok p
  | s :: rest =>
    if s.all Text.isBlank then p.enterLines rest
    else do
      let l ← Line.ofText (String.ofList s)
      require (!l.isDirect) (.of .illegalDirect "LINE NUMBER MISSING")
      (p.enter l).enterLines rest

def ofText (s : String) : Except Condition Listing := empty.enterLines (Text.lines s.toList)

end Listing

end LineBasic
