import ShaderInterface.Source.Declaration

/-!
# Sources without their declarations

Linking takes the declarations out of a source and puts one block of code in their place. The
place is that of the first declaration; a source without declarations takes the block at its
beginning, but behind the line of a leading `#version` directive. Until the block is known a
placeholder marks the place, on a line of its own.
-/

namespace ShaderInterface.Source

/-- The mark that stands for the block to come. -/
def placeholder : String := "@@@"

/-- The greatest number of bytes that the source of one stage may have. -/
def maxSourceBytes : Nat := 1024 * 1024

/-- A source with its declarations taken out, divided at the place for the block of code. -/
structure Stripped where
  /-- The text in front of the place. -/
  head : String
  /-- The text behind the place. -/
  tail : String
  /-- What was taken out, in order. -/
  declarations : List (Keyword × String)
deriving DecidableEq, Repr

/-- Divides a source behind a leading `#version` line: the line with the blanks in front of it but
without its newline, and what follows the newline. -/
def splitVersionLine? (source : List Char) : Option (List Char × List Char) :=
  let directive := Text.trimStart source
  if "#version".toList <+: directive then
    some (source.takeWhile Text.isBlank ++ directive.takeWhile (· != '\n'),
      (directive.dropWhile (· != '\n')).drop 1)
  else none

namespace Stripped

/-- The payloads of the declarations with one keyword, in order. -/
def payloads (stripped : Stripped) (keyword : Keyword) : List String :=
  (stripped.declarations.filter (·.1 == keyword)).map (·.2)

/-- The source with a block of code at its place. -/
def inject (stripped : Stripped) (block : String) : String :=
  stripped.head ++ block ++ stripped.tail

/-- The source with the placeholder at the place for the block. -/
def text (stripped : Stripped) : String :=
  stripped.inject placeholder

/-- The number of bytes in front of the placeholder. -/
def placeholderOffset (stripped : Stripped) : Nat :=
  stripped.head.utf8ByteSize

/-- Takes the declarations out of a source without any. -/
def ofBare (source : List Char) : Stripped :=
  match splitVersionLine? source with
  | some (line, rest) => ⟨String.ofList (line ++ ['\n']), String.ofList ('\n' :: rest), []⟩
  | none => ⟨"", String.ofList ('\n' :: source), []⟩

/-- Takes the declarations out of a source of which the outline is known. -/
def ofOutline (outline : Outline) : Stripped :=
  if outline.cuts.isEmpty then ofBare outline.lead
  else {
    head := String.ofList outline.lead
    tail := String.ofList ('\n' :: outline.cuts.flatMap (·.2))
    declarations := outline.cuts.map fun (cut, _) => (cut.keyword, cut.payload) }

/-- Takes the declarations out of the source of a stage. -/
def ofSource (stage : Stage) (source : String) : Except LinkError Stripped :=
  if source.utf8ByteSize > maxSourceBytes then
    .error (.sourceTooLarge stage source.utf8ByteSize maxSourceBytes)
  else (Outline.ofSource stage source).map ofOutline

/-- A block of code changes nothing but the place where it goes. -/
theorem toList_inject (stripped : Stripped) (block : String) :
    (stripped.inject block).toList =
      stripped.head.toList ++ block.toList ++ stripped.tail.toList := by
  simp [inject]

end Stripped

end ShaderInterface.Source
