/-!
# Formats of vertex elements

How a host stores one element of a vertex. Integer data that is not normalized reaches the shader
as integers; all other data reaches it as floats.
-/

namespace ShaderInterface

/-- The number type of a stored vertex element. -/
inductive ElementType where
  | int8
  | uint8
  | int16
  | uint16
  | int32
  | uint32
  | float16
  | float32
deriving DecidableEq, Repr

namespace ElementType

/-- The element holds floats. -/
def isFloat : ElementType → Bool
  | float16 | float32 => true
  | _ => false

/-- The element holds integers with a sign. -/
def isSignedInt : ElementType → Bool
  | int8 | int16 | int32 => true
  | _ => false

/-- The element types in a fixed order. -/
def all : List ElementType :=
  [int8, uint8, int16, uint16, int32, uint32, float16, float32]

/-- The place of an element type in the list of all. -/
def code (t : ElementType) : Nat :=
  all.idxOf t

/-- Different element types stand at different places. -/
theorem code_inj {t u : ElementType} : t.code = u.code ↔ t = u := by
  cases t <;> cases u <;> decide

end ElementType

/-- The stored form of a vertex element. -/
structure ElementFormat where
  type : ElementType
  /-- Integers are fetched as fractions of their range. -/
  normalized : Bool
deriving DecidableEq, Repr

/-- Integers with a sign, or without. -/
inductive Signedness where
  | signed
  | unsigned
deriving DecidableEq, Repr

namespace ElementFormat

/-- The data reaches the shader as integers. -/
def arrivesAsInt (f : ElementFormat) : Bool :=
  !f.type.isFloat && !f.normalized

/-- The integers as which the data reaches the shader, if it does not arrive as floats. -/
def integers? (f : ElementFormat) : Option Signedness :=
  if f.arrivesAsInt then some (if f.type.isSignedInt then .signed else .unsigned) else none

end ElementFormat

end ShaderInterface
