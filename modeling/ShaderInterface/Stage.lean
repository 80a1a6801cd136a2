/-!
# Shader stages

The two stages of a shader pair, and the sets of stages to which a bound resource is visible.
-/

namespace ShaderInterface

/-- One half of a shader pair. -/
inductive Stage where
  | vertex
  | fragment
deriving DecidableEq, Repr

namespace Stage

/-- The stage's name in messages. -/
def name : Stage → String
  | vertex => "vertex"
  | fragment => "fragment"

end Stage

/-- The stages that can see a resource. -/
structure Visibility where
  vertex : Bool
  fragment : Bool
deriving DecidableEq, Repr

namespace Visibility

/-- Visible to one stage only. -/
def only : Stage → Visibility
  | .vertex => ⟨true, false⟩
  | .fragment => ⟨false, true⟩

/-- Visible to both stages. -/
def both : Visibility := ⟨true, true⟩

/-- The set as a bit mask: the vertex stage has the value 1 and the fragment stage 2. -/
def bits (v : Visibility) : Nat :=
  v.vertex.toNat + 2 * v.fragment.toNat

/-- Different sets have different masks. -/
theorem bits_inj {v w : Visibility} : v.bits = w.bits ↔ v = w := by
  rcases v with ⟨_ | _, _ | _⟩ <;> rcases w with ⟨_ | _, _ | _⟩ <;> decide

end Visibility

end ShaderInterface
