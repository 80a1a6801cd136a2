/-!
# Blocks of code

The block that takes the place of a source's declarations is made of sections, each of which ends
with a newline.
-/

namespace ShaderInterface.Block

/-- A section with a newline at its end; an empty section stays empty. -/
def endLine (code : String) : String :=
  if code.isEmpty || code.toList.getLast? == some '\n' then code else code ++ "\n"

/-- The block of the given sections, in order. -/
def ofSections (sections : List String) : String :=
  String.join (sections.map endLine)

end ShaderInterface.Block
