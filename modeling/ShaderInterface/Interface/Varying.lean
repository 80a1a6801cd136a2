import ShaderInterface.Interface.Variable

/-!
# Varyings

The vertex stage produces varyings and takes the locations from 0 on for them, in the order of
their declarations. The fragment stage reads each varying at the location at which it is produced.
-/

namespace ShaderInterface

/-- The varyings of the two stages. -/
structure Varyings where
  vertex : List PlacedVariable
  fragment : List PlacedVariable
deriving DecidableEq, Repr

namespace Varyings

/-- The location at which a varying of the given name is produced. -/
def location? (produced : List PlacedVariable) (name : String) : Option Nat :=
  (produced.find? (·.name == name)).map (·.location)

/-- Adds a varying of the vertex stage to those declared before it. -/
def produce (produced : Array PlacedVariable) (text : String) :
    Except LinkError (Array PlacedVariable) := do
  let v ← Variable.parse .vertex .varying text
  if produced.any (·.name == v.name) then throw (.duplicateVarying v.name)
  else return produced.push ⟨v, produced.size⟩

/-- Reads a varying of the fragment stage. -/
def consume (produced : List PlacedVariable) (text : String) : Except LinkError PlacedVariable := do
  let v ← Variable.parse .fragment .varying text
  match location? produced v.name with
  | some location => return ⟨v, location⟩
  | none => throw (.missingProducer v.name text)

/-- Reads the varyings of both stages and gives them their locations. -/
def pair (vertexLines fragmentLines : List String) : Except LinkError Varyings := do
  let vertex ← vertexLines.foldlM produce #[]
  let fragment ← fragmentLines.mapM (consume vertex.toList)
  return ⟨vertex.toList, fragment⟩

/-- The declarations for the vertex stage. -/
def vertexCode (v : Varyings) : String :=
  PlacedVariable.declarations .out v.vertex

/-- The declarations for the fragment stage. -/
def fragmentCode (v : Varyings) : String :=
  PlacedVariable.declarations .into v.fragment

end Varyings

end ShaderInterface
