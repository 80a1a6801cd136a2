import ShaderInterface.Source.Keyword
import ShaderInterface.Text.Identifier
import ShaderInterface.Text.Neighbours

/-!
# Lexemes of a shader source

A source is read from left to right as lexemes: newlines, blanks, comments, preprocessor
directives, statement terminators, parentheses, words, declarations and single other characters.
What a word or a `#` means depends on what came before, which a `Context` sums up: a `#` begins a
directive only where nothing but blanks, comments and directives stands before it on its line, and
a keyword begins a declaration only at a statement boundary outside parentheses.

Reading never fails and drops nothing. `text_read` says that a lexeme and the rest make up what
was read, and `flatMap_text_lexemes` that the lexemes of a source make up the source. A
declaration that no `;` ends is a lexeme of its own, `unterminated`, which takes all that is left.
-/

namespace ShaderInterface.Source

open Text

/-- A piece of a source. -/
inductive Lexeme where
  | newline
  | blank (c : Char)
  | lineComment (text : List Char)
  | blockComment (text : List Char)
  | directive (text : List Char)
  | terminator (c : Char)
  | openParen
  | closeParen
  | word (text : List Char)
  | other (c : Char)
  | declaration (keyword : Keyword) (body semicolons : List Char)
  | unterminated (keyword : Keyword) (body : List Char)
deriving DecidableEq, Repr

/-- The characters of a lexeme. -/
def Lexeme.text : Lexeme → List Char
  | newline => ['\n']
  | blank c | terminator c | other c => [c]
  | lineComment text | blockComment text | directive text | word text => text
  | openParen => ['(']
  | closeParen => [')']
  | declaration keyword body semicolons => keyword.word.toList ++ body ++ semicolons
  | unterminated keyword body => keyword.word.toList ++ body

/-! ## Characters that the reader tells apart -/

/-- A blank inside a line. -/
def isLineBlank (c : Char) : Bool :=
  c == ' ' || c == '\t' || c == '\r'

/-- A character that ends a statement or bounds a block. -/
def isTerminator (c : Char) : Bool :=
  c == ';' || c == '{' || c == '}'

/-- A character that may follow the keyword of a declaration. -/
def isKeywordGap (c : Char) : Bool :=
  c == ' ' || c == '\t' || c == '\n' || c == '\r' || c == '\x0c'

/-- Two neighbours inside the body of a block comment, which ends with `*/`. -/
def insideComment (b c : Char) : Bool :=
  !(b == '*' && c == '/')

/-- Two neighbours inside a directive, which ends with a newline that has no backslash before it. -/
def insideDirective (b c : Char) : Bool :=
  c != '\n' || b == '\\'

/-! ## Context -/

/-- What the meaning of the next lexeme depends on. -/
structure Context where
  /-- Only blanks, comments and directives stand before the next lexeme on its line. -/
  lineStart : Bool
  /-- Only newlines, blanks, comments and directives stand between the next lexeme and the last
  terminator or the beginning of the source. -/
  afterTerminator : Bool
  /-- The number of parentheses that are open. A host counts them in a word of 32 bits, which is the
  exact number only below `2 ^ 32` of them; a source has to be larger than any that is stripped to
  get there (`parenDepth_le_utf8ByteSize`). -/
  parenDepth : Nat
deriving DecidableEq, Repr

namespace Context

/-- The context in which a source begins. -/
def start : Context := ⟨true, true, 0⟩

/-- The next word may begin a declaration. -/
def atBoundary (ctx : Context) : Bool :=
  (ctx.lineStart || ctx.afterTerminator) && ctx.parenDepth == 0

/-- The context behind a lexeme. -/
def after (ctx : Context) : Lexeme → Context
  | .newline => { ctx with lineStart := true }
  | .blank _ | .lineComment _ | .directive _ => ctx
  | .blockComment text => { ctx with lineStart := ctx.lineStart || text.contains '\n' }
  | .terminator _ | .declaration .. | .unterminated .. =>
    { ctx with lineStart := false, afterTerminator := true }
  | .openParen => ⟨false, false, ctx.parenDepth + 1⟩
  | .closeParen => ⟨false, false, ctx.parenDepth - 1⟩
  | .word _ | .other _ => ⟨false, false, ctx.parenDepth⟩

/-- The keyword whose declaration the word `w` begins in front of `rest`, if it begins one. -/
def declares? (ctx : Context) (w rest : List Char) : Option Keyword :=
  if ctx.atBoundary && rest.head?.any isKeywordGap then Keyword.ofWord? (String.ofList w) else none

end Context

/-- The lexeme that a character is by itself. -/
def single (c : Char) : Lexeme :=
  if c == '\n' then .newline
  else if isLineBlank c then .blank c
  else if isTerminator c then .terminator c
  else if c == '(' then .openParen
  else if c == ')' then .closeParen
  else .other c

/-- Reads the declaration that a keyword begins in front of `rest`: its body runs to the first
`;`, and all semicolons that follow at once belong to it. -/
def readDeclaration (keyword : Keyword) (rest : List Char) : Lexeme × List Char :=
  let closing := rest.dropWhile (· != ';')
  if closing.isEmpty then (.unterminated keyword rest, [])
  else (.declaration keyword (rest.takeWhile (· != ';')) (closing.takeWhile (· == ';')),
    closing.dropWhile (· == ';'))

/-- Reads the word that begins with `c` in front of `cs`, or the declaration that this word
begins. -/
def readWord (ctx : Context) (c : Char) (cs : List Char) : Lexeme × List Char :=
  let w := c :: cs.takeWhile isNamePart
  let rest := cs.dropWhile isNamePart
  match ctx.declares? w rest with
  | some keyword => readDeclaration keyword rest
  | none => (.word w, rest)

/-- Reads the block comment of which `cs` holds all but the two characters that begin it. It ends
with the first `*/`, or else with the source. -/
def readBlockComment (cs : List Char) : Lexeme × List Char :=
  let (body, rest) := spanNeighbours insideComment ' ' cs
  (.blockComment ('/' :: '*' :: (body ++ rest.take 1)), rest.drop 1)

/-- Reads the directive that begins with `c` in front of `cs`. -/
def readDirective (c : Char) (cs : List Char) : Lexeme × List Char :=
  let (body, rest) := spanNeighbours insideDirective c cs
  (.directive (c :: body), rest)

/-- Reads the lexeme that begins with `c` in front of `cs`, and gives what is left behind it. -/
def read (ctx : Context) (c : Char) (cs : List Char) : Lexeme × List Char :=
  if c == '/' && cs.head? == some '/' then
    (.lineComment (c :: cs.takeWhile (· != '\n')), cs.dropWhile (· != '\n'))
  else if c == '/' && cs.head? == some '*' then readBlockComment cs.tail
  else if c == '#' && ctx.lineStart then readDirective c cs
  else if isNameStart c then readWord ctx c cs
  else (single c, cs)

/-- A character by itself is the whole text of its lexeme. -/
@[simp]
theorem text_single (c : Char) : (single c).text = [c] := by
  unfold single
  split
  · next h => rw [eq_of_beq h]; rfl
  split
  · rfl
  split
  · rfl
  split
  · next h => rw [eq_of_beq h]; rfl
  split
  · next h => rw [eq_of_beq h]; rfl
  · rfl

/-- A declaration and what is left behind it make up the keyword and what followed it. -/
theorem text_readDeclaration (keyword : Keyword) (rest : List Char) :
    (readDeclaration keyword rest).1.text ++ (readDeclaration keyword rest).2
      = keyword.word.toList ++ rest := by
  unfold readDeclaration
  dsimp only
  split
  · exact List.append_nil _
  · simp only [Lexeme.text, List.append_assoc, List.takeWhile_append_dropWhile]

/-- A word begins the declaration of a keyword only if it is that keyword. -/
theorem Context.word_eq_of_declares? {ctx : Context} {w rest : List Char} {keyword : Keyword}
    (h : ctx.declares? w rest = some keyword) : keyword.word.toList = w := by
  unfold declares? at h
  split at h
  · rw [Keyword.word_eq_of_ofWord? h, String.toList_ofList]
  · contradiction

/-- A word or declaration and what is left behind it make up what was read. -/
theorem text_readWord (ctx : Context) (c : Char) (cs : List Char) :
    (readWord ctx c cs).1.text ++ (readWord ctx c cs).2 = c :: cs := by
  unfold readWord
  dsimp only
  split
  · next h =>
    rw [text_readDeclaration, Context.word_eq_of_declares? h, List.cons_append,
      List.takeWhile_append_dropWhile]
  · exact congrArg (c :: ·) List.takeWhile_append_dropWhile

/-- A block comment and what is left behind it make up what was read. -/
theorem text_readBlockComment (cs : List Char) :
    (readBlockComment cs).1.text ++ (readBlockComment cs).2 = '/' :: '*' :: cs := by
  simp only [readBlockComment, Lexeme.text, List.cons_append, List.append_assoc,
    List.take_append_drop, spanNeighbours_append]

/-- A directive and what is left behind it make up what was read. -/
theorem text_readDirective (c : Char) (cs : List Char) :
    (readDirective c cs).1.text ++ (readDirective c cs).2 = c :: cs := by
  simp only [readDirective, Lexeme.text, List.cons_append, spanNeighbours_append]

/-- A lexeme and what is left behind it make up what was read. -/
theorem text_read (ctx : Context) (c : Char) (cs : List Char) :
    (read ctx c cs).1.text ++ (read ctx c cs).2 = c :: cs := by
  unfold read
  split
  · exact congrArg (c :: ·) List.takeWhile_append_dropWhile
  split
  · next h =>
    obtain ⟨hslash, hstar⟩ := (Bool.and_eq_true _ _).mp h
    obtain ⟨ds, rfl⟩ := List.head?_eq_some_iff.1 (eq_of_beq hstar)
    rw [eq_of_beq hslash]
    exact text_readBlockComment ds
  split
  · exact text_readDirective c cs
  split
  · exact text_readWord ctx c cs
  · rw [text_single]
    rfl

/-- No declaration is empty. -/
theorem text_readDeclaration_ne_nil (keyword : Keyword) (rest : List Char) :
    (readDeclaration keyword rest).1.text ≠ [] := by
  unfold readDeclaration
  dsimp only
  split <;> simp [Lexeme.text]

/-- No lexeme that is read is empty. -/
theorem text_read_ne_nil (ctx : Context) (c : Char) (cs : List Char) :
    (read ctx c cs).1.text ≠ [] := by
  unfold read
  split
  · exact List.cons_ne_nil _ _
  split
  · exact List.cons_ne_nil _ _
  split
  · exact List.cons_ne_nil _ _
  split
  · unfold readWord
    dsimp only
    split
    · exact text_readDeclaration_ne_nil _ _
    · exact List.cons_ne_nil _ _
  · rw [text_single]
    exact List.cons_ne_nil _ _

/-- What is left behind a lexeme is shorter than what was read. -/
theorem length_read_lt (ctx : Context) (c : Char) (cs : List Char) :
    (read ctx c cs).2.length < (c :: cs).length := by
  have hlen := congrArg List.length (text_read ctx c cs)
  have hpos := List.length_pos_iff.2 (text_read_ne_nil ctx c cs)
  rw [List.length_append] at hlen
  omega

/-! ## All lexemes of a source -/

/-- Reads lexemes to the end; `done` holds those read before, in reverse order. -/
def lexemesFrom (done : List Lexeme) (ctx : Context) : List Char → List Lexeme
  | [] => done.reverse
  | c :: cs =>
    let next := read ctx c cs
    lexemesFrom (next.1 :: done) (ctx.after next.1) next.2
termination_by cs => cs.length
decreasing_by exact length_read_lt ctx c cs

/-- The lexemes of `cs` read in the context `ctx`. -/
def lexemes (ctx : Context) (cs : List Char) : List Lexeme :=
  lexemesFrom [] ctx cs

/-- Lexemes read before the first of `done` only stand in front of the others. -/
theorem lexemesFrom_append (done more : List Lexeme) (ctx : Context) (cs : List Char) :
    lexemesFrom (done ++ more) ctx cs = more.reverse ++ lexemesFrom done ctx cs := by
  fun_induction lexemesFrom done ctx cs with
  | case1 done ctx => simp [lexemesFrom]
  | case2 done ctx c cs next ih =>
    rw [lexemesFrom]
    exact ih

/-- An empty source has no lexemes. -/
@[simp]
theorem lexemes_nil (ctx : Context) : lexemes ctx [] = [] := by
  simp [lexemes, lexemesFrom]

/-- The first lexeme is the one that `read` gives, and the others are read in the context behind
it. -/
theorem lexemes_cons (ctx : Context) (c : Char) (cs : List Char) :
    lexemes ctx (c :: cs) =
      (read ctx c cs).1 :: lexemes (ctx.after (read ctx c cs).1) (read ctx c cs).2 := by
  rw [lexemes, lexemesFrom]
  exact lexemesFrom_append [] [_] _ _

/-- The lexemes of a source make up the source. -/
theorem flatMap_text_lexemes (ctx : Context) (cs : List Char) :
    (lexemes ctx cs).flatMap Lexeme.text = cs := by
  induction hn : cs.length using Nat.strongRecOn generalizing ctx cs with
  | ind n ih =>
    cases cs with
    | nil => simp
    | cons c cs =>
      rw [lexemes_cons, List.flatMap_cons, ih _ (hn ▸ length_read_lt ctx c cs) _ _ rfl, text_read]

end ShaderInterface.Source
