import ShaderInterface.LinkError
import ShaderInterface.Source.Lexeme
import ShaderInterface.Text.Blank

/-!
# Outline of a shader source

An outline divides a source into its declarations and the text between them. With a declaration
goes the run of spaces and tabs in front of its keyword. `text_ofLexemes` says that an outline
holds all of the text, so cutting the declarations out loses nothing else.
-/

namespace ShaderInterface.Source

/-- A declaration with the spaces and tabs in front of it. -/
structure Cut where
  indent : List Char
  keyword : Keyword
  body : List Char
  semicolons : List Char
deriving DecidableEq, Repr

namespace Cut

/-- The characters that are cut out. -/
def text (cut : Cut) : List Char :=
  cut.indent ++ cut.keyword.word.toList ++ cut.body ++ cut.semicolons

/-- What is declared: the text between the keyword and the first semicolon, without blank ends. -/
def payload (cut : Cut) : String :=
  String.ofList (Text.trim cut.body)

end Cut

/-- The declarations of a source, each with the text that follows it up to the next one. -/
structure Outline where
  /-- The text in front of the first declaration. -/
  lead : List Char
  cuts : List (Cut × List Char)
deriving DecidableEq, Repr

namespace Outline

/-- The text that is divided. -/
def text (outline : Outline) : List Char :=
  outline.lead ++ outline.cuts.flatMap fun (cut, gap) => cut.text ++ gap

/-- A character that goes with the declaration behind it. -/
def isIndent (c : Char) : Bool :=
  c == ' ' || c == '\t'

/-- Puts text in front of all that is divided. -/
def addText (text : List Char) (outline : Outline) : Outline :=
  { outline with lead := text ++ outline.lead }

/-- Puts a blank in front; an indent directly before a declaration goes with the declaration. -/
def addBlank (c : Char) : Outline → Outline
  | ⟨[], (cut, gap) :: cuts⟩ =>
    if isIndent c then ⟨[], ({ cut with indent := c :: cut.indent }, gap) :: cuts⟩
    else ⟨[c], (cut, gap) :: cuts⟩
  | outline => outline.addText [c]

/-- Puts a lexeme in front. -/
def addLexeme (lexeme : Lexeme) (outline : Outline) : Outline :=
  match lexeme with
  | .declaration keyword body semicolons =>
    ⟨[], (⟨[], keyword, body, semicolons⟩, outline.lead) :: outline.cuts⟩
  | .blank c => outline.addBlank c
  | _ => outline.addText lexeme.text

/-- The outline of a source that consists of the given lexemes. -/
def ofLexemes (lexemes : List Lexeme) : Outline :=
  lexemes.foldr addLexeme ⟨[], []⟩

/-- The first declaration that nothing ends, with the number of its line; the first lexeme stands
on the line `line`. -/
def unterminated? (line : Nat) : List Lexeme → Option (Keyword × Nat)
  | [] => none
  | .unterminated keyword _ :: _ => some (keyword, line)
  | lexeme :: lexemes => unterminated? (line + lexeme.text.count '\n') lexemes

/-- The outline of the source of a stage, unless a declaration has no end. -/
def ofSource (stage : Stage) (source : String) : Except LinkError Outline :=
  let found := lexemes .start source.toList
  match unterminated? 1 found with
  | some (keyword, line) => .error (.unterminatedDeclaration stage keyword line)
  | none => .ok (ofLexemes found)

/-- Text put in front stands in front of the text that is divided. -/
theorem text_addText (text : List Char) (outline : Outline) :
    (outline.addText text).text = text ++ outline.text := by
  simp [addText, Outline.text]

/-- A blank put in front stands in front of the text that is divided. -/
theorem text_addBlank (c : Char) (outline : Outline) :
    (outline.addBlank c).text = c :: outline.text := by
  unfold addBlank
  split
  · split <;> simp [Outline.text, Cut.text]
  · simp [text_addText]

/-- A lexeme put in front stands in front of the text that is divided. -/
theorem text_addLexeme (lexeme : Lexeme) (outline : Outline) :
    (outline.addLexeme lexeme).text = lexeme.text ++ outline.text := by
  unfold addLexeme
  split
  · simp [Outline.text, Cut.text, Lexeme.text]
  · simp [text_addBlank, Lexeme.text]
  · rw [text_addText]

/-- The outline of lexemes is that of the others with the first put in front. -/
theorem ofLexemes_cons (lexeme : Lexeme) (lexemes : List Lexeme) :
    ofLexemes (lexeme :: lexemes) = (ofLexemes lexemes).addLexeme lexeme := rfl

/-- An outline holds all of the text. -/
theorem text_ofLexemes (lexemes : List Lexeme) :
    (ofLexemes lexemes).text = lexemes.flatMap Lexeme.text := by
  induction lexemes with
  | nil => rfl
  | cons lexeme lexemes ih =>
    rw [ofLexemes_cons, text_addLexeme, ih, List.flatMap_cons]

/-- The outline of a source holds all of the source. -/
theorem text_of_ofSource {stage : Stage} {source : String} {outline : Outline}
    (h : ofSource stage source = .ok outline) : outline.text = source.toList := by
  unfold ofSource at h
  dsimp only at h
  split at h
  · simp at h
  · cases h
    rw [text_ofLexemes, flatMap_text_lexemes]

end Outline

end ShaderInterface.Source
