/-!
Escaped marks inside literals.

A literal that ends at a mark (a quote or a slash) writes the mark inside it behind a backslash.
Reading takes each backslash that stands before the mark away; a backslash before any other
character stays, so reading what was written gives every text back.
-/
namespace PipelineScript.Text

/-- Puts a backslash before every `mark`. -/
def escapeMark (mark : Char) : List Char → List Char
  | [] => []
  | c :: cs => if c = mark then '\\' :: c :: escapeMark mark cs else c :: escapeMark mark cs

/-- Drops every backslash that stands before a `mark`, reading from the left. -/
def unescapeMark (mark : Char) : List Char → List Char
  | [] => []
  | [c] => [c]
  | c :: d :: cs =>
    if c = '\\' ∧ d = mark then mark :: unescapeMark mark cs
    else c :: unescapeMark mark (d :: cs)

/-- The text without its first and its last character. -/
def dropEnds (cs : List Char) : List Char := cs.tail.dropLast

theorem unescapeMark_cons_of_ne (mark c : Char) (cs : List Char) (h : c ≠ '\\') :
    unescapeMark mark (c :: cs) = c :: unescapeMark mark cs := by
  cases cs with
  | nil => rfl
  | cons d ds => simp [unescapeMark, h]

/-- A backslash before anything but the mark stays. -/
theorem unescapeMark_backslash (mark : Char) (cs : List Char) (h : cs.head? ≠ some mark) :
    unescapeMark mark ('\\' :: cs) = '\\' :: unescapeMark mark cs := by
  cases cs with
  | nil => rfl
  | cons d ds =>
    have hd : d ≠ mark := fun e => h (by simp [e])
    simp [unescapeMark, hd]

/-- An escaped text never begins with the mark. -/
theorem head?_escapeMark_ne (mark : Char) (hm : mark ≠ '\\') (cs : List Char) :
    (escapeMark mark cs).head? ≠ some mark := by
  cases cs with
  | nil => simp [escapeMark]
  | cons c cs =>
    by_cases h : c = mark
    · simp [escapeMark, h, hm.symm]
    · simp [escapeMark, h]

/-- Reading takes away what writing put in. -/
theorem unescapeMark_escapeMark (mark : Char) (hm : mark ≠ '\\') (cs : List Char) :
    unescapeMark mark (escapeMark mark cs) = cs := by
  induction cs with
  | nil => rfl
  | cons c cs ih =>
    by_cases h : c = mark
    · simp [escapeMark, unescapeMark, h, ih]
    · by_cases hb : c = '\\'
      · simp [escapeMark, hb, hm.symm, unescapeMark_backslash, head?_escapeMark_ne mark hm, ih]
      · simp [escapeMark, h, unescapeMark_cons_of_ne _ _ _ hb, ih]

@[simp] theorem dropEnds_cons_append (a b : Char) (cs : List Char) :
    dropEnds (a :: (cs ++ [b])) = cs := by
  simp [dropEnds]

end PipelineScript.Text
