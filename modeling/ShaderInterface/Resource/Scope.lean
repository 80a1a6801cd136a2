import ShaderInterface.Resource.Group

/-!
# Scopes

A scope provides uniforms and textures from outside of the mesh group: it answers which names it
provides, and it has the code that declares them.
-/

namespace ShaderInterface

/-- A provider of uniforms and textures. -/
structure Scope where
  hasUniform : String → Bool
  hasTexture : String → Bool
  /-- The code that declares what the scope provides. -/
  code : String

namespace Scope

/-- The scope provides a declared uniform. -/
def provides (scope : Scope) (u : Uniform) : Bool :=
  if u.isTexture then scope.hasTexture u.name else scope.hasUniform u.name

/-- The first scope that provides a uniform. -/
def provider? (scopes : List Scope) (u : Uniform) : Option Nat :=
  scopes.findIdx? (·.provides u)

end Scope

/-- The scope that provides what a resource group holds. -/
def ResourceGroup.scope (g : ResourceGroup) : Scope :=
  ⟨g.hasUniform, g.hasTexture, g.code⟩

end ShaderInterface
