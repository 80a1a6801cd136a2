/-!
# Keywords of interface declarations

The four words that can begin a declaration of a shader's interface.
-/

namespace ShaderInterface.Source

/-- What a declaration declares: a vertex input, a value passed between the stages, a fragment
output or a uniform. -/
inductive Keyword where
  | attrib
  | varying
  | output
  | uniform
deriving DecidableEq, Repr

namespace Keyword

/-- The word that stands in the source. -/
def word : Keyword → String
  | attrib => "attribute"
  | varying => "varying"
  | output => "out"
  | uniform => "uniform"

/-- Reads a word as a keyword. -/
def ofWord? (w : String) : Option Keyword :=
  if w = "attribute" then some attrib
  else if w = "varying" then some varying
  else if w = "out" then some output
  else if w = "uniform" then some uniform
  else none

/-- No keyword is empty. -/
@[simp]
theorem word_ne_empty (k : Keyword) : k.word ≠ "" := by
  cases k <;> decide

/-- The word of a keyword is read as that keyword. -/
@[simp]
theorem ofWord?_word (k : Keyword) : ofWord? k.word = some k := by
  cases k <;> decide

/-- What is read as a keyword is its word. -/
theorem word_eq_of_ofWord? {w : String} {k : Keyword} (h : ofWord? w = some k) : k.word = w := by
  unfold ofWord? at h
  repeat' split at h
  all_goals simp_all [word]
  all_goals subst h; rfl

/-- A word is read as a keyword only if it is that keyword's own word. -/
theorem ofWord?_eq_some_iff {w : String} {k : Keyword} : ofWord? w = some k ↔ k.word = w :=
  ⟨word_eq_of_ofWord?, fun h => h ▸ ofWord?_word k⟩

end Keyword

end ShaderInterface.Source
