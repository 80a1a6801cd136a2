import ShaderInterface.Resource.BindingTable
import ShaderInterface.Resource.BufferLayout

/-!
# Resource groups

A resource group holds what the uniforms of one bind group become: the layout of the buffer for
its values, if it has any, and the binding table of that buffer and its textures.
-/

namespace ShaderInterface

/-- The resources of a bind group. -/
structure ResourceGroup where
  name : String
  layout : Option BufferLayout
  bindings : BindingTable
deriving DecidableEq, Repr

namespace ResourceGroup

/-- The binding of a group's buffer. -/
def bufferBinding (name : String) (layout : BufferLayout) : BufferBinding :=
  ⟨"ub_" ++ name, BindingTable.bufferSlot, .both, layout.totalBytes⟩

/-- The group of the given number and name for values and textures. -/
def ofParts (tables : HostTables) (sampling : HighpSampling) (group : Nat) (name : String)
    (values textures : List Uniform) : Except LinkError ResourceGroup := do
  let layout ← BufferLayout.ofUniforms tables values
  let bindings : BindingTable := ⟨group, layout.map (bufferBinding name), []⟩
  let bound ← Texture.assign tables sampling bindings.firstTextureSlot textures
  return ⟨name, layout, { bindings with textures := bound }⟩

/-- The group of the given number and name for uniforms of both kinds. -/
def ofUniforms (tables : HostTables) (sampling : HighpSampling) (group : Nat) (name : String)
    (us : List Uniform) : Except LinkError ResourceGroup :=
  ofParts tables sampling group name (us.filter (!·.isTexture)) (us.filter (·.isTexture))

/-- The number of the group. -/
def group (g : ResourceGroup) : Nat :=
  g.bindings.group

/-- The code that declares the group's buffer. -/
def bufferCode (g : ResourceGroup) : String :=
  match g.layout with
  | some layout => layout.declaration g.group BindingTable.bufferSlot g.name
  | none => ""

/-- The code that declares the resources of the group. -/
def code (g : ResourceGroup) : String :=
  g.bufferCode ++ g.bindings.textureDeclarations

/-- A value of the given name stands in the group's buffer. -/
def hasUniform (g : ResourceGroup) (name : String) : Bool :=
  g.layout.any (·.contains name)

/-- A texture of the given name is bound in the group. -/
def hasTexture (g : ResourceGroup) (name : String) : Bool :=
  (g.bindings.texture? name).isSome

end ResourceGroup

end ShaderInterface
