/-!
# Names of the bind groups

The bind groups of a program are named. The last one belongs to the mesh that is drawn; those
before it are filled by scopes from outside.
-/

namespace ShaderInterface

/-- The names of the bind groups, of which there is at least one. -/
structure BindGroups where
  /-- The names of the groups that scopes fill. -/
  outer : List String
  /-- The name of the last group. -/
  mesh : String
deriving DecidableEq, Repr

namespace BindGroups

/-- The groups of a program that does not say otherwise. -/
def standard : BindGroups := ⟨["view", "material"], "mesh"⟩

/-- All names, in the order of the groups. -/
def names (groups : BindGroups) : List String :=
  groups.outer ++ [groups.mesh]

/-- The groups of the given names, of which there must be one. -/
def ofNames? (names : List String) : Option BindGroups :=
  names.getLast?.map fun mesh => ⟨names.dropLast, mesh⟩

/-- The number of groups. -/
def count (groups : BindGroups) : Nat :=
  groups.outer.length + 1

/-- The number of the mesh group. -/
def meshGroup (groups : BindGroups) : Nat :=
  groups.outer.length

/-- The name of a group. -/
def name? (groups : BindGroups) (group : Nat) : Option String :=
  groups.names[group]?

/-- There are as many names as groups. -/
@[simp]
theorem length_names (groups : BindGroups) : groups.names.length = groups.count := by
  simp [names, count]

/-- The names of the groups are those that were given. -/
theorem names_of_ofNames? {names : List String} {groups : BindGroups}
    (h : ofNames? names = some groups) : groups.names = names := by
  obtain ⟨mesh, hmesh, rfl⟩ := Option.map_eq_some_iff.1 h
  obtain ⟨outer, rfl⟩ := List.getLast?_eq_some_iff.1 hmesh
  simp [BindGroups.names]

/-- The mesh group has the name of the mesh. -/
@[simp]
theorem name?_meshGroup (groups : BindGroups) :
    groups.name? groups.meshGroup = some groups.mesh := by
  simp [name?, names, meshGroup]

end BindGroups

end ShaderInterface
