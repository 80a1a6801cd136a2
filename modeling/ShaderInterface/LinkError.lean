import ShaderInterface.Semantic
import ShaderInterface.Source.Keyword
import ShaderInterface.Stage

/-!
# Why a pair of shaders cannot be linked

One constructor for each cause. A cause carries the stage and the declaration text at fault, or
the name at fault, and `message` words it.
-/

namespace ShaderInterface

open Source (Keyword)

/-- The cause of a failed link. -/
inductive LinkError where
  | sourceTooLarge (stage : Stage) (size limit : Nat)
  | unterminatedDeclaration (stage : Stage) (keyword : Keyword) (line : Nat)
  | invalidDeclaration (stage : Stage) (keyword : Keyword) (text : String)
  | invalidUniform (stage : Stage) (text : String)
  | uniformArray (stage : Stage) (text : String)
  | severalUniforms (stage : Stage) (text : String)
  | conflictingUniforms (name first second : String)
  | unknownUniformType (stage : Stage) (typeName text : String)
  | sizelessUniform (name typeName : String)
  | unplaceableAttribute (name : String) (cause : UnsupportedSemantic)
  | locationCollision (location : Nat) (first second : Semantic)
  | duplicateVarying (name : String)
  | missingProducer (name text : String)
  | tooManyScopes (count groups : Nat)
deriving DecidableEq, Repr

namespace LinkError

/-- The wording of a cause. -/
def message : LinkError → String
  | sourceTooLarge stage size limit =>
    stage.name ++ " shader source is " ++ toString size ++ " bytes, exceeding the maximum of "
      ++ toString limit ++ " bytes"
  | unterminatedDeclaration stage keyword line =>
    stage.name ++ " shader line " ++ toString line ++ ": `" ++ keyword.word
      ++ "` declaration has no terminating `;`"
  | invalidDeclaration stage keyword text =>
    stage.name ++ " shader: invalid `" ++ keyword.word ++ "` declaration `" ++ text ++ "`"
  | invalidUniform stage text =>
    stage.name ++ " shader: invalid uniform declaration `" ++ text ++ "`"
  | uniformArray stage text =>
    stage.name ++ " shader: only single uniforms with a literal array size of 1 are supported: `"
      ++ text ++ "`"
  | severalUniforms stage text =>
    stage.name ++ " shader: a comma on a uniform line is not supported, split it into multiple "
      ++ "uniforms: `" ++ text ++ "`"
  | conflictingUniforms name first second =>
    "uniform `" ++ name ++ "` is declared with conflicting text: `" ++ first ++ "` vs `" ++ second
      ++ "`"
  | unknownUniformType stage typeName text =>
    stage.name ++ " shader: uniform type `" ++ typeName ++ "` is not recognized in `" ++ text ++ "`"
  | sizelessUniform name typeName =>
    "uniform `" ++ name ++ "` of type `" ++ typeName ++ "` has no byte size"
  | unplaceableAttribute name cause =>
    "vertex attribute `" ++ name ++ "`: " ++ cause.message
  | locationCollision location first second =>
    "vertex attributes " ++ first.name ++ " and " ++ second.name ++ " are both mapped to location "
      ++ toString location
  | duplicateVarying name =>
    "vertex shader declares varying `" ++ name ++ "` more than once"
  | missingProducer name text =>
    "fragment shader requires varying `" ++ name
      ++ "` but the vertex shader does not produce it: `" ++ text ++ "`"
  | tooManyScopes count groups =>
    toString count ++ " external scopes leave no bind group for mesh resources ("
      ++ toString groups ++ " groups)"

end LinkError

end ShaderInterface
