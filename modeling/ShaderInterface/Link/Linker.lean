import ShaderInterface.Interface.Attribute
import ShaderInterface.Interface.Output
import ShaderInterface.Interface.Varying
import ShaderInterface.Link.Block
import ShaderInterface.Resource.BindGroups
import ShaderInterface.Resource.Scope
import ShaderInterface.Source.Stripped

/-!
# Linking a pair of shaders

A linker turns the interface declarations of a vertex and a fragment source into declarations with
explicit locations and bindings. It works in three steps: both sources are stripped of their
declarations, the payloads of the declarations are given their places (`assign`), and a block of
code that declares the places is put into each source.
-/

namespace ShaderInterface

open Source (Keyword Stripped)

/-- What a host chooses for all of its links. -/
structure Options where
  sampling : HighpSampling
  groups : BindGroups
deriving DecidableEq, Repr

/-- The options of a host that chooses nothing. -/
def Options.standard : Options := ⟨.unfilterable, .standard⟩

/-- A pair of shaders to be linked, with all that the link reads. -/
structure LinkRequest where
  vertex : String
  fragment : String
  /-- The semantics of the vertex attributes. -/
  semantics : SemanticMap
  /-- The formats of the vertex data. -/
  formats : FormatMap
  /-- The scope at each place fills the bind group of that number. -/
  scopes : List Scope

/-- The places that the declared variables and resources of a pair have been given. -/
structure Assignment where
  attributes : List Attribute
  varyings : Varyings
  outputs : List PlacedVariable
  mesh : ResourceGroup
deriving DecidableEq, Repr

/-- A linked pair of shaders. -/
structure LinkedPair where
  vertex : String
  fragment : String
  assignment : Assignment
deriving DecidableEq, Repr

/-- A linker holds what does not change from link to link. -/
structure Linker where
  tables : HostTables
  options : Options

namespace Linker

/-- The payloads of a stage's declarations, by keyword. -/
abbrev Payloads := Keyword → List String

/-- The uniforms that two stages declare, those of the vertex stage first. -/
def uniforms (vertex fragment : Payloads) : Except LinkError (List Uniform) :=
  Uniform.merge
    ((vertex .uniform).map (Stage.vertex, ·) ++ (fragment .uniform).map (Stage.fragment, ·))

/-- Refuses declarations that have no meaning in their stage. -/
def refuse (stage : Stage) (keyword : Keyword) (payloads : Payloads) : Except LinkError Unit :=
  match payloads keyword with
  | [] => .ok ()
  | text :: _ => .error (.invalidDeclaration stage keyword text)

/-- Gives places to the declared variables and to the uniforms that no scope provides. -/
def assign (linker : Linker) (semantics : SemanticMap) (formats : FormatMap) (scopes : List Scope)
    (vertex fragment : Payloads) : Except LinkError Assignment := do
  refuse .vertex .output vertex
  refuse .fragment .attrib fragment
  let attributes ← Attribute.assign semantics formats linker.tables.location (vertex .attrib)
  let varyings ← Varyings.pair (vertex .varying) (fragment .varying)
  let outputs ← Output.assign (fragment .output)
  let declared ← uniforms vertex fragment
  let mesh ← ResourceGroup.ofUniforms linker.tables linker.options.sampling
    linker.options.groups.meshGroup linker.options.groups.mesh
    (declared.filter fun u => (Scope.provider? scopes u).isNone)
  return ⟨attributes, varyings, outputs, mesh⟩

/-- The block of code for the vertex source. -/
def vertexBlock (scopes : List Scope) (a : Assignment) : String :=
  Block.ofSections (scopes.map (·.code)
    ++ [Attribute.declarations a.attributes, a.varyings.vertexCode, a.mesh.code])

/-- The block of code for the fragment source. -/
def fragmentBlock (scopes : List Scope) (a : Assignment) : String :=
  Block.ofSections (scopes.map (·.code)
    ++ [a.varyings.fragmentCode, PlacedVariable.declarations .out a.outputs, a.mesh.code])

/-- Links a pair of shaders. -/
def link (linker : Linker) (request : LinkRequest) : Except LinkError LinkedPair := do
  if request.scopes.length ≥ linker.options.groups.count then
    throw (.tooManyScopes request.scopes.length linker.options.groups.count)
  let vertex ← Stripped.ofSource .vertex request.vertex
  let fragment ← Stripped.ofSource .fragment request.fragment
  let assignment ← linker.assign request.semantics request.formats request.scopes
    vertex.payloads fragment.payloads
  return {
    vertex := vertex.inject (vertexBlock request.scopes assignment)
    fragment := fragment.inject (fragmentBlock request.scopes assignment)
    assignment }

/-- The resources that uniform lines become in a bind group in front of the mesh group. -/
def outerGroup (linker : Linker) (group : Nat) (lines : List String) :
    Except LinkError ResourceGroup := do
  match linker.options.groups.outer[group]? with
  | none => throw (.tooManyScopes (group + 1) linker.options.groups.count)
  | some name =>
    let us ← Uniform.merge (lines.map (Stage.vertex, ·))
    ResourceGroup.ofUniforms linker.tables linker.options.sampling group name us

end Linker

end ShaderInterface
