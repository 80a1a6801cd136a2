import ShaderInterface.Proofs.OuterGroups

/-!
# Global declarations

The block of code that is put into a source is the print of a list of declarations
(`Linker.vertexBlock_eq_print`, `Linker.fragmentBlock_eq_print`), so it is known which global
identifiers it declares.
-/

namespace ShaderInterface

/-! ## Global declarations -/

/-- A declaration at the outermost level of a shader. -/
inductive GlobalDeclaration where
  /-- A variable behind its qualifiers. -/
  | declared (qualifiers : List String) (typeName name : String)
  /-- A variable with a value. -/
  | defined (typeName name value : String)
  /-- A block without an instance name, of which the members are global. -/
  | block (qualifiers : List String) (name : String) (members : List Declarator)
deriving DecidableEq, Repr

namespace GlobalDeclaration

/-- The qualifiers in front of a declaration. -/
def qualifierText (qualifiers : List String) : String :=
  String.join (qualifiers.map (· ++ " "))

/-- The line of a member of a block. -/
def memberLine (member : Declarator) : String :=
  "    " ++ member.render ++ ";\n"

/-- The code of a declaration. -/
def code : GlobalDeclaration → String
  | declared qualifiers typeName name =>
    qualifierText qualifiers ++ typeName ++ " " ++ name ++ ";\n"
  | defined typeName name value => typeName ++ " " ++ name ++ " = " ++ value ++ ";\n"
  | block qualifiers name members =>
    qualifierText qualifiers ++ name ++ " \x7b\n" ++ String.join (members.map memberLine)
      ++ "\x7d;\n"

/-- The global identifiers of a declaration. -/
def identifiers : GlobalDeclaration → List String
  | declared _ _ name => [name]
  | defined _ name _ => [name]
  | block _ _ members => members.map (·.name)

/-- The code of declarations, one after the other. -/
def print (ds : List GlobalDeclaration) : String :=
  String.join (ds.map code)

/-- The global identifiers of declarations. -/
def allIdentifiers (ds : List GlobalDeclaration) : List String :=
  ds.flatMap identifiers

/-- Qualifiers stand one after the other. -/
@[simp]
theorem qualifierText_cons (qualifier : String) (qualifiers : List String) :
    qualifierText (qualifier :: qualifiers) = qualifier ++ " " ++ qualifierText qualifiers := by
  rw [qualifierText, List.map_cons, String.join_cons]
  rfl

/-- Without qualifiers nothing stands in front. -/
@[simp]
theorem qualifierText_nil : qualifierText [] = "" :=
  rfl

/-- A further qualifier stands behind the others. -/
@[simp]
theorem qualifierText_append (qualifiers qualifiers' : List String) :
    qualifierText (qualifiers ++ qualifiers') =
      qualifierText qualifiers ++ qualifierText qualifiers' := by
  rw [qualifierText, List.map_append, String.join_append]
  rfl

/-- Without declarations there is no code. -/
theorem print_nil : print [] = "" :=
  rfl

/-- The first declaration is printed in front of the others. -/
theorem print_cons (d : GlobalDeclaration) (ds : List GlobalDeclaration) :
    print (d :: ds) = d.code ++ print ds := by
  rw [print, List.map_cons, String.join_cons]
  rfl

/-- Declarations in a row are printed in a row. -/
theorem print_append (ds ds' : List GlobalDeclaration) :
    print (ds ++ ds') = print ds ++ print ds' := by
  rw [print, List.map_append, String.join_append]
  rfl

/-- What is printed piece by piece is printed as a whole. -/
theorem print_flatMap {α : Type} {f : α → List GlobalDeclaration} {line : α → String}
    {xs : List α} (h : ∀ x, print (f x) = line x) :
    print (xs.flatMap f) = String.join (xs.map line) := by
  induction xs with
  | nil => rfl
  | cons x xs ih => rw [List.flatMap_cons, print_append, ih, h, List.map_cons, String.join_cons]

/-- Declarations end their last line. -/
theorem closed_print (ds : List GlobalDeclaration) : Block.Closed (print ds) := by
  refine Block.closed_join fun code hcode => ?_
  obtain ⟨d, -, rfl⟩ := List.mem_map.1 hcode
  cases d <;> exact Block.closed_append rfl _

end GlobalDeclaration

open GlobalDeclaration (print print_nil print_cons print_append print_flatMap)

/-! ## Declarations of a pair -/

/-- The layout qualifier of a location. -/
def locationQualifier (location : Nat) : String :=
  "layout(location = " ++ toString location ++ ")"

/-- The layout qualifier of a slot. -/
def slotQualifier (group slot : Nat) : String :=
  "layout(set = " ++ toString group ++ ", binding = " ++ toString slot ++ ")"

/-- The layout qualifier of the slot of a uniform buffer. -/
def bufferQualifier (group slot : Nat) : String :=
  "layout(set = " ++ toString group ++ ", binding = " ++ toString slot ++ ", std140)"

/-- What declares the variable at its location. -/
def PlacedVariable.global (direction : Direction) (v : PlacedVariable) : GlobalDeclaration :=
  .declared (locationQualifier v.location :: (v.qualifiers ++ [direction.word])) v.typeName v.name

/-- What declares the input of an attribute and converts it. -/
def Attribute.globals (a : Attribute) : List GlobalDeclaration :=
  .declared (locationQualifier a.location :: Direction.into.word :: a.qualifiers) a.inputType
      a.inputName ::
    (a.integers.map fun _ => GlobalDeclaration.defined a.typeName a.name
      (a.typeName ++ "(" ++ a.inputName ++ ")")).toList

/-- What declares a texture and its sampler. -/
def Texture.globals (group : Nat) (t : Texture) : List GlobalDeclaration :=
  [.declared [slotQualifier group t.textureSlot, "uniform"]
      (t.sampleType.textureStem ++ t.dimension.typeName) t.name,
    .declared [slotQualifier group t.samplerSlot, "uniform"] t.sampleType.samplerType t.samplerName]

/-- What declares the fields of a buffer. -/
def BufferLayout.global (group : Nat) (groupName : String) (layout : BufferLayout) :
    GlobalDeclaration :=
  .block [bufferQualifier group BindingTable.bufferSlot, "uniform"] ("ub_" ++ groupName)
    (layout.fields.map (·.toDeclarator))

/-- What declares the resources of a group. -/
def ResourceGroup.globals (g : ResourceGroup) : List GlobalDeclaration :=
  (g.layout.map (BufferLayout.global g.group g.name)).toList ++
    g.bindings.textures.flatMap (Texture.globals g.group)

/-- What is declared for the vertex stage. -/
def Assignment.vertexGlobals (a : Assignment) : List GlobalDeclaration :=
  a.attributes.flatMap (·.globals) ++ a.varyings.vertex.map (PlacedVariable.global .out) ++
    a.mesh.globals

/-- What is declared for the fragment stage. -/
def Assignment.fragmentGlobals (a : Assignment) : List GlobalDeclaration :=
  a.varyings.fragment.map (PlacedVariable.global .into) ++
    a.outputs.map (PlacedVariable.global .out) ++ a.mesh.globals

/-! ## Their code -/

/-- A line with a location has the layout qualifier of the location. -/
theorem locationLine_eq (location : Nat) (declared : String) :
    locationLine location declared =
      locationQualifier location ++ " " ++ declared ++ ";\n" := by
  have hclose : (") " : String) = ")" ++ " " := rfl
  unfold locationLine locationQualifier
  rw [hclose]
  simp only [String.append_assoc]

/-- A variable is declared on one line. -/
theorem PlacedVariable.code_global (direction : Direction) (v : PlacedVariable) :
    (v.global direction).code = v.declaration direction := by
  have hqualifiers : GlobalDeclaration.qualifierText v.qualifiers = v.qualifierText := rfl
  unfold global declaration
  rw [locationLine_eq]
  simp only [GlobalDeclaration.code, GlobalDeclaration.qualifierText_cons,
    GlobalDeclaration.qualifierText_append, GlobalDeclaration.qualifierText_nil, hqualifiers,
    String.append_assoc, String.append_empty]

/-- Variables are declared line by line. -/
theorem PlacedVariable.print_map_global (direction : Direction) (vs : List PlacedVariable) :
    print (vs.map (global direction)) = declarations direction vs := by
  rw [print, List.map_map, declarations]
  exact congrArg String.join (List.map_congr_left fun v _ => v.code_global direction)

/-- An attribute is declared by its lines. -/
theorem Attribute.print_globals (a : Attribute) : print a.globals = a.declaration := by
  have hqualifiers : GlobalDeclaration.qualifierText a.qualifiers = a.qualifierText := rfl
  have hclose : (");" : String) = ")" ++ ";" := rfl
  have hline : (";\n" : String) = ";" ++ "\n" := rfl
  unfold globals declaration conversion?
  rw [locationLine_eq]
  cases a.integers with
  | none =>
    simp only [Option.map_none, Option.toList_none, print_cons, print_nil, GlobalDeclaration.code,
      GlobalDeclaration.qualifierText_cons, hqualifiers, String.append_assoc, String.append_empty]
  | some signedness =>
    simp only [Option.map_some, Option.toList_some, print_cons, print_nil, GlobalDeclaration.code,
      GlobalDeclaration.qualifierText_cons, hqualifiers, hclose, hline, String.append_assoc,
      String.append_empty]

/-- A resource is declared on one line. -/
theorem Texture.resourceLine_eq (group slot : Nat) (typeName name : String) :
    resourceLine group slot typeName name =
      (GlobalDeclaration.declared [slotQualifier group slot, "uniform"] typeName name).code := by
  have hclose : (") uniform " : String) = ")" ++ (" " ++ ("uniform" ++ " ")) := rfl
  unfold resourceLine slotQualifier
  rw [hclose]
  simp only [GlobalDeclaration.code, GlobalDeclaration.qualifierText_cons,
    GlobalDeclaration.qualifierText_nil, String.append_assoc, String.append_empty]

/-- A texture is declared by its lines. -/
theorem Texture.print_globals (group : Nat) (t : Texture) :
    print (t.globals group) = t.declaration group := by
  unfold declaration
  rw [resourceLine_eq, resourceLine_eq, globals, print_cons, print_cons, print_nil,
    String.append_empty]

/-- A buffer is declared by its block. -/
theorem BufferLayout.code_global (group : Nat) (groupName : String) (layout : BufferLayout) :
    (layout.global group groupName).code =
      layout.declaration group BindingTable.bufferSlot groupName := by
  have hclose : (", std140) uniform ub_" : String) =
      ", std140)" ++ (" " ++ ("uniform" ++ (" " ++ "ub_"))) := rfl
  have hlines : (layout.fields.map (·.toDeclarator)).map GlobalDeclaration.memberLine =
      layout.fields.map fieldLine := by
    rw [List.map_map]
    rfl
  unfold global declaration bufferQualifier
  rw [hclose, GlobalDeclaration.code, hlines]
  simp only [GlobalDeclaration.qualifierText_cons, GlobalDeclaration.qualifierText_nil,
    String.append_assoc, String.append_empty]

/-- The resources of a group are declared by its code. -/
theorem ResourceGroup.print_globals (g : ResourceGroup) : print g.globals = g.code := by
  have hbuffer : print (g.layout.map (BufferLayout.global g.group g.name)).toList =
      g.bufferCode := by
    rw [bufferCode]
    cases g.layout with
    | none => rfl
    | some layout =>
      rw [Option.map_some, Option.toList_some, print_cons, print_nil, String.append_empty,
        BufferLayout.code_global]
  rw [globals, print_append, hbuffer, print_flatMap (Texture.print_globals g.group)]
  rfl

namespace Linker

/-- Without scopes the block for the vertex source declares what is declared for the vertex
stage. -/
theorem vertexBlock_eq_print (a : Assignment) : vertexBlock [] a = print a.vertexGlobals := by
  have hattributes : Attribute.declarations a.attributes =
      print (a.attributes.flatMap (·.globals)) :=
    (print_flatMap Attribute.print_globals).symm
  rw [vertexBlock, Varyings.vertexCode, hattributes, ← PlacedVariable.print_map_global,
    ← ResourceGroup.print_globals, Block.ofSections_of_closed]
  · rw [Assignment.vertexGlobals, print_append, print_append]
    simp only [List.map_nil, List.nil_append, String.join_cons, String.join_nil,
      String.append_empty, String.append_assoc]
  · simp [GlobalDeclaration.closed_print]

/-- Without scopes the block for the fragment source declares what is declared for the fragment
stage. -/
theorem fragmentBlock_eq_print (a : Assignment) :
    fragmentBlock [] a = print a.fragmentGlobals := by
  rw [fragmentBlock, Varyings.fragmentCode, ← PlacedVariable.print_map_global,
    ← PlacedVariable.print_map_global, ← ResourceGroup.print_globals, Block.ofSections_of_closed]
  · rw [Assignment.fragmentGlobals, print_append, print_append]
    simp only [List.map_nil, List.nil_append, String.join_cons, String.join_nil,
      String.append_empty, String.append_assoc]
  · simp [GlobalDeclaration.closed_print]

end Linker

end ShaderInterface
