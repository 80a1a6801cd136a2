import ShaderInterface.Interface.Variable

/-!
# Fragment outputs

The outputs of a fragment stage take the locations from 0 on, in the order of their declarations.
-/

namespace ShaderInterface.Output

/-- Reads one output; its location is the number of outputs that are declared before it. -/
def place (line : String × Nat) : Except LinkError PlacedVariable := do
  let v ← Variable.parse .fragment .output line.1
  return ⟨v, line.2⟩

/-- Reads the outputs and gives them their locations. -/
def assign (lines : List String) : Except LinkError (List PlacedVariable) :=
  lines.zipIdx.mapM place

end ShaderInterface.Output
