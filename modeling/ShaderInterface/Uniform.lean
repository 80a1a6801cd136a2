import ShaderInterface.Declarator
import ShaderInterface.LinkError

/-!
# Uniforms of a shader pair

A uniform is a declarator with the text and the stage in which it was found. The uniforms of
several lines are merged: a line may be repeated, with other blanks between its words, but two
different lines may not declare one name.
-/

namespace ShaderInterface

/-- A declared uniform. -/
structure Uniform extends Declarator where
  /-- The declaration as it stands in the source. -/
  text : String
  stage : Stage
deriving DecidableEq, Repr

namespace Uniform

/-- The cause of a failed link that a faulty declaration is. -/
def cause (stage : Stage) (text : String) : Declarator.Fault → LinkError
  | .malformed => .invalidUniform stage text
  | .several => .severalUniforms stage text
  | .arraySize => .uniformArray stage text

/-- Reads a uniform declared in the source of a stage. -/
def parse (stage : Stage) (text : String) : Except LinkError Uniform :=
  match Declarator.parse text with
  | .ok declarator => .ok ⟨declarator, text, stage⟩
  | .error fault => .error (cause stage text fault)

/-- Adds one declaration to the uniforms found so far. A line that repeats an earlier one, up to
blanks, is read before the two are compared. To skip it unread, by its text alone, comes to the same
(`addLine_of_repeats`): it is read as the earlier one is, which has been accepted. -/
def addLine (found : Array Uniform) (line : Stage × String) : Except LinkError (Array Uniform) := do
  let uniform ← parse line.1 line.2
  match found.find? (·.name == uniform.name) with
  | none => return found.push uniform
  | some first =>
    if Text.words first.text = Text.words uniform.text then return found
    else throw (.conflictingUniforms uniform.name first.text uniform.text)

/-- The uniforms that the given lines declare, in the order in which they are first declared. -/
def merge (lines : List (Stage × String)) : Except LinkError (List Uniform) :=
  (lines.foldlM addLine #[]).map Array.toList

end Uniform

end ShaderInterface
