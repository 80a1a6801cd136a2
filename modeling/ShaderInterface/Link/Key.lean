import ShaderInterface.Link.Code
import ShaderInterface.Link.Linker

/-!
# Keys of link requests

The key of a request holds all that its link reads, apart from the linker itself: both sources,
the semantics and the formats of the attributes, the code of the scopes, and for each declared
uniform the scope that provides it. The last part is needed because a scope need not provide what
its code declares.
-/

namespace ShaderInterface

/-- All that the link of a request reads. -/
structure LinkKey where
  vertex : String
  fragment : String
  attributes : List (String × Semantic × Option ElementFormat)
  scopeCodes : List String
  /-- The place of the scope that provides a uniform, for each uniform of the sources. -/
  providers : List (String × Option Nat)
deriving DecidableEq, Repr

namespace LinkKey

/-- The scopes that provide the uniforms of a request. Without scopes the sources are not read. -/
def providersOf (request : LinkRequest) : Except LinkError (List (String × Option Nat)) := do
  if request.scopes.isEmpty then return []
  let vertex ← Source.Stripped.ofSource .vertex request.vertex
  let fragment ← Source.Stripped.ofSource .fragment request.fragment
  let us ← Linker.uniforms vertex.payloads fragment.payloads
  return us.map fun u => (u.name, Scope.provider? request.scopes u)

/-- The key of a request. -/
def ofRequest (request : LinkRequest) : Except LinkError LinkKey := do
  let providers ← providersOf request
  return {
    vertex := request.vertex
    fragment := request.fragment
    attributes := request.semantics.toList.map fun (name, s) => (name, s, request.formats s)
    scopeCodes := request.scopes.map (·.code)
    providers }

/-- The code of the form in which an attribute is stored, if it is known. -/
def formatCode : Option ElementFormat → List UInt8
  | some f => [1, f.type.code.toUInt8, f.normalized.toNat.toUInt8]
  | none => [0]

/-- The code of an attribute's name, semantic and format. -/
def attributeCode (a : String × Semantic × Option ElementFormat) : List UInt8 :=
  Code.text a.1 ++ Code.text a.2.1.name ++ formatCode a.2.2

/-- The code of a uniform's name and of the scope that provides it; the greatest word says that
no scope does. -/
def providerCode (p : String × Option Nat) : List UInt8 :=
  Code.text p.1 ++ Code.word (p.2.getD (Code.wordLimit - 1))

/-- The bytes under which a link is remembered. The uniforms come last and are not counted. -/
def bytes (key : LinkKey) : List UInt8 :=
  Code.text key.vertex ++ Code.text key.fragment ++ Code.list attributeCode key.attributes
    ++ Code.list Code.text key.scopeCodes ++ key.providers.flatMap providerCode

end LinkKey

end ShaderInterface
