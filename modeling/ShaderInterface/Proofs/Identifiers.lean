import Mathlib.Data.List.Perm.Basic
import ShaderInterface.Proofs.GlobalDeclarations
import ShaderInterface.Proofs.Homes

/-!
# Identifiers that the code declares

The global identifiers of a linked source come in kinds: what the sources declare as attributes,
varyings, outputs and uniforms, and the names that are made up for integer inputs and samplers. A
link looks at one kind at a time, hence what a source declares twice is shared by two kinds
(`Linker.onceInKinds_of_link`).
-/

namespace ShaderInterface

open Source (Stripped)
open Variable (Declares)
open GlobalDeclaration (print)

/-! ## Kinds of identifiers -/

namespace GlobalDeclaration

/-- Declarations in a row declare what each of them declares. -/
theorem allIdentifiers_append (ds ds' : List GlobalDeclaration) :
    allIdentifiers (ds ++ ds') = allIdentifiers ds ++ allIdentifiers ds' :=
  List.flatMap_append

end GlobalDeclaration

open GlobalDeclaration (allIdentifiers allIdentifiers_append)

/-- The names of the integers from which attributes are converted. -/
def Attribute.integerInputs (attributes : List Attribute) : List String :=
  (attributes.filter (·.integers.isSome)).map fun a => "_private_" ++ a.name

/-- The names of the uniforms of a group, of both kinds. -/
def ResourceGroup.uniformNames (g : ResourceGroup) : List String :=
  g.fields.map (·.name) ++ g.bindings.textures.map (·.name)

/-- The names of the samplers of a group. -/
def ResourceGroup.samplerNames (g : ResourceGroup) : List String :=
  g.bindings.textures.map fun t => t.name ++ "_sampler"

/-- The identifiers of the vertex stage: attributes, the integers from which they are converted,
varyings, uniforms and samplers. -/
def Assignment.vertexKinds (a : Assignment) : List (List String) :=
  [a.attributes.map (·.name), Attribute.integerInputs a.attributes,
    a.varyings.vertex.map (·.name), a.mesh.uniformNames, a.mesh.samplerNames]

/-- The identifiers of the fragment stage: varyings, outputs, uniforms and samplers. -/
def Assignment.fragmentKinds (a : Assignment) : List (List String) :=
  [a.varyings.fragment.map (·.name), a.outputs.map (·.name), a.mesh.uniformNames,
    a.mesh.samplerNames]

/-- Variables declare their names. -/
theorem PlacedVariable.allIdentifiers_map_global (direction : Direction)
    (vs : List PlacedVariable) : allIdentifiers (vs.map (global direction)) = vs.map (·.name) := by
  rw [allIdentifiers, List.flatMap_map, List.map_eq_flatMap]
  rfl

/-- Attributes declare their names and those of the integers from which they are converted. -/
theorem Attribute.allIdentifiers_flatMap_globals_perm (attributes : List Attribute) :
    (allIdentifiers (attributes.flatMap (·.globals))).Perm
      (attributes.map (·.name) ++ integerInputs attributes) := by
  induction attributes with
  | nil => exact .nil
  | cons a attributes ih =>
    rw [List.flatMap_cons, allIdentifiers_append, List.map_cons]
    cases hintegers : a.integers with
    | none =>
      have hinputs : integerInputs (a :: attributes) = integerInputs attributes := by
        simp [integerInputs, hintegers]
      have hglobals : allIdentifiers a.globals = [a.name] := by
        simp [globals, allIdentifiers, GlobalDeclaration.identifiers, inputName, hintegers]
      rw [hinputs, hglobals]
      exact ih.cons a.name
    | some signedness =>
      have hinputs : integerInputs (a :: attributes) =
          ("_private_" ++ a.name) :: integerInputs attributes := by
        simp [integerInputs, hintegers]
      have hglobals : allIdentifiers a.globals = ["_private_" ++ a.name, a.name] := by
        simp [globals, allIdentifiers, GlobalDeclaration.identifiers, inputName, hintegers]
      rw [hinputs, hglobals]
      -- the input stands in front of the name
      have hmiddle : (("_private_" ++ a.name) ::
          ((a.name :: attributes.map (·.name)) ++ integerInputs attributes)).Perm
            ((a.name :: attributes.map (·.name)) ++
              ("_private_" ++ a.name) :: integerInputs attributes) :=
        List.perm_middle.symm
      exact ((ih.cons a.name).cons _).trans hmiddle

/-- A group declares its uniforms and its samplers. -/
theorem ResourceGroup.allIdentifiers_globals_perm (g : ResourceGroup) :
    (allIdentifiers g.globals).Perm (g.uniformNames ++ g.samplerNames) := by
  have hbuffer : allIdentifiers (g.layout.map (BufferLayout.global g.group g.name)).toList =
      g.fields.map (·.name) := by
    rw [fields]
    cases g.layout with
    | none => rfl
    | some layout =>
      simp [allIdentifiers, BufferLayout.global, GlobalDeclaration.identifiers, Function.comp_def]
  have htextures : allIdentifiers (g.bindings.textures.flatMap (Texture.globals g.group)) =
      g.bindings.textures.flatMap fun t => t.name :: [t.name ++ "_sampler"] := by
    rw [allIdentifiers, List.flatMap_assoc]
    rfl
  have hperm := List.map_append_flatMap_perm g.bindings.textures (·.name)
    fun t => [t.name ++ "_sampler"]
  rw [← List.map_eq_flatMap] at hperm
  rw [globals, allIdentifiers_append, hbuffer, htextures, uniformNames, samplerNames,
    List.append_assoc]
  exact hperm.symm.append_left _

/-! ## Names in the sources -/

/-- The text declares a variable of the given name. -/
def Variable.Names (text name : String) : Prop :=
  ∃ typeName, Declares text typeName name

/-- What is read from a text has the name that the text declares. -/
theorem Variable.names_of_parse {stage : Stage} {keyword : Source.Keyword} {text : String}
    {v : Variable} (h : parse stage keyword text = .ok v) : Names text v.name :=
  ⟨v.typeName, (parse_eq_ok_iff.1 h).1⟩

/-- A text declares no more than one name. -/
theorem Variable.Names.unique {text name name' : String} (h : Names text name)
    (h' : Names text name') : name = name' := by
  obtain ⟨typeName, h⟩ := h
  obtain ⟨typeName', h'⟩ := h'
  exact (h.unique h').2

/-- The attributes that are placed are those of the declared names that have a semantic. -/
theorem Attribute.mem_names_iff_of_foldlM {semantics : SemanticMap} {formats : FormatMap}
    {location : Semantic → Except UnsupportedSemantic Nat} {lines : List String}
    {placed out : Array Attribute}
    (h : lines.foldlM (place semantics formats location) placed = .ok out) {name : String} :
    name ∈ out.toList.map (·.name) ↔ name ∈ placed.toList.map (·.name) ∨
      (∃ text ∈ lines, Variable.Names text name) ∧ ∃ s, semantics[name]? = some s := by
  induction lines generalizing placed with
  | nil =>
    obtain rfl := Except.ok.inj h
    simp
  | cons text lines ih =>
    rw [List.foldlM_cons, Outcome.bind_eq_ok_iff] at h
    obtain ⟨between, htext, hlines⟩ := h
    obtain ⟨v, hv, hcases⟩ := place_eq_ok_iff.1 htext
    have hnames : Variable.Names text name ↔ v.name = name :=
      ⟨fun h => (Variable.names_of_parse hv).unique h, fun h => h ▸ Variable.names_of_parse hv⟩
    have hbetween : name ∈ between.toList.map (·.name) ↔ name ∈ placed.toList.map (·.name) ∨
        v.name = name ∧ ∃ s, semantics[name]? = some s := by
      obtain ⟨hnone, rfl⟩ | ⟨s, l, hs, -, -, rfl⟩ := hcases
      · -- a name without a semantic is dropped
        refine (or_iff_left ?_).symm
        rintro ⟨rfl, s, hs⟩
        rw [hnone] at hs
        contradiction
      · rw [Array.toList_push, List.map_append, List.mem_append, List.map_singleton,
          List.mem_singleton, eq_comm]
        refine or_congr_right (and_iff_left_of_imp ?_).symm
        rintro rfl
        exact ⟨s, hs⟩
    rw [ih hlines, hbetween, List.exists_mem_cons_iff, hnames, or_and_right, or_assoc]

/-- The varyings of the vertex stage have the declared names, in order. -/
theorem Varyings.forall₂_names_of_foldlM {lines : List String}
    {produced out : Array PlacedVariable} (h : lines.foldlM produce produced = .ok out) :
    ∃ vs, out.toList = produced.toList ++ vs ∧
      List.Forall₂ (fun text v => Variable.Names text v.name) lines vs := by
  induction lines generalizing produced with
  | nil =>
    obtain rfl := Except.ok.inj h
    exact ⟨[], (List.append_nil _).symm, .nil⟩
  | cons text lines ih =>
    rw [List.foldlM_cons, Outcome.bind_eq_ok_iff] at h
    obtain ⟨between, htext, hlines⟩ := h
    obtain ⟨v, hv, -, rfl⟩ := produce_eq_ok_iff.1 htext
    obtain ⟨vs, hout, hvs⟩ := ih hlines
    have hnames : Variable.Names text v.name := Variable.names_of_parse hv
    refine ⟨⟨v, produced.size⟩ :: vs, ?_, .cons hnames hvs⟩
    rw [hout, Array.toList_push, List.append_assoc, List.singleton_append]

/-- The varyings of both stages have the declared names, in order. -/
theorem Varyings.forall₂_names_of_pair {vertexLines fragmentLines : List String} {v : Varyings}
    (h : pair vertexLines fragmentLines = .ok v) :
    List.Forall₂ Variable.Names vertexLines (v.vertex.map (·.name)) ∧
      List.Forall₂ Variable.Names fragmentLines (v.fragment.map (·.name)) := by
  obtain ⟨produced, hproduced, h⟩ := Outcome.bind_eq_ok_iff.1 h
  obtain ⟨consumed, hconsumed, hv⟩ := Outcome.bind_eq_ok_iff.1 h
  obtain rfl := Except.ok.inj hv
  rw [List.forall₂_map_right_iff, List.forall₂_map_right_iff]
  constructor
  · obtain ⟨vs, hout, hvs⟩ := forall₂_names_of_foldlM hproduced
    rwa [hout]
  · refine (Outcome.mapM_eq_ok_iff.1 hconsumed).imp fun text w hw => ?_
    obtain ⟨v, hv, hw⟩ := Outcome.bind_eq_ok_iff.1 hw
    cases hl : location? produced.toList v.name with
    | none =>
      rw [hl] at hw
      contradiction
    | some l =>
      rw [hl] at hw
      obtain rfl := Except.ok.inj hw
      exact Variable.names_of_parse hv

/-- The outputs have the declared names, in order. -/
theorem Output.forall₂_names_of_assign {lines : List String} {out : List PlacedVariable}
    (h : assign lines = .ok out) : List.Forall₂ Variable.Names lines (out.map (·.name)) := by
  rw [List.forall₂_map_right_iff, ← List.zipIdx_map_fst 0 lines, List.forall₂_map_left_iff]
  refine (Outcome.mapM_eq_ok_iff.1 h).imp fun line w hw => ?_
  obtain ⟨v, hv, hw⟩ := Outcome.bind_eq_ok_iff.1 hw
  obtain rfl := Except.ok.inj hw
  exact Variable.names_of_parse hv

/-- The uniforms of a group have the names of those of which it is made. -/
theorem ResourceGroup.mem_uniformNames_iff {tables : HostTables} {sampling : HighpSampling}
    {us : List Uniform} {group : Nat} {name : String} {g : ResourceGroup}
    (h : ofUniforms tables sampling group name us = .ok g) (hnodup : (us.map (·.name)).Nodup)
    {n : String} : n ∈ g.uniformNames ↔ ∃ u ∈ us, u.name = n := by
  have hhouses := houses_of_ofUniforms h hnodup
  rw [uniformNames, map_name_of_map_toDeclarator hhouses.fields,
    map_name_of_map_viewOf hhouses.bound, List.mem_append, List.mem_map, List.mem_map]
  constructor
  · rintro (⟨u, hu, rfl⟩ | ⟨u, hu, rfl⟩) <;> exact ⟨u, (List.mem_filter.1 hu).1, rfl⟩
  · rintro ⟨u, hu, rfl⟩
    cases htexture : u.isTexture with
    | false => exact .inl ⟨u, List.mem_filter.2 ⟨hu, by rw [htexture]; rfl⟩, rfl⟩
    | true => exact .inr ⟨u, List.mem_filter.2 ⟨hu, htexture⟩, rfl⟩

/-- The names that are declared anew are those that the payloads declare. -/
structure Assignment.NamedBy (a : Assignment) (semantics : SemanticMap)
    (vertex fragment : Linker.Payloads) : Prop where
  /-- The attributes are those that have a semantic. -/
  attributes : ∀ name, name ∈ a.attributes.map (·.name) ↔
    (∃ text ∈ vertex .attrib, Variable.Names text name) ∧ ∃ s, semantics[name]? = some s
  /-- The vertex varyings are those of the vertex stage, in order. -/
  vertexVaryings : List.Forall₂ Variable.Names (vertex .varying) (a.varyings.vertex.map (·.name))
  /-- The fragment varyings are those of the fragment stage, in order. -/
  fragmentVaryings : List.Forall₂ Variable.Names (fragment .varying)
    (a.varyings.fragment.map (·.name))
  /-- The outputs are those of the fragment stage, in order. -/
  outputs : List.Forall₂ Variable.Names (fragment .output) (a.outputs.map (·.name))
  /-- The uniforms are those of both stages. -/
  uniforms : ∀ name, name ∈ a.mesh.uniformNames ↔
    ∃ text ∈ vertex .uniform ++ fragment .uniform,
      ∃ d, Declarator.parse text = .ok d ∧ d.name = name

/-- Without scopes, what is placed is what the payloads declare. -/
theorem Linker.namedBy_of_assign {linker : Linker} {semantics : SemanticMap} {formats : FormatMap}
    {vertex fragment : Payloads} {a : Assignment}
    (h : linker.assign semantics formats [] vertex fragment = .ok a) :
    a.NamedBy semantics vertex fragment := by
  obtain ⟨us, hus, hmesh⟩ := uniforms_and_mesh_of_assign h
  have hfree : unprovided [] us = us := List.filter_eq_self.2 fun _ _ => rfl
  rw [hfree] at hmesh
  simp only [assign, Outcome.bind_eq_ok_iff] at h
  obtain ⟨⟨⟩, -, ⟨⟩, -, as, has, vs, hvs, os, hos, -, -, g, -, ha⟩ := h
  obtain rfl := Except.ok.inj ha
  constructor
  case attributes =>
    intro name
    obtain ⟨placed, hplaced, rfl⟩ := Outcome.map_eq_ok_iff.1 has
    have hnames := @Attribute.mem_names_iff_of_foldlM _ _ _ _ _ _ hplaced name
    rwa [Array.toList_empty, List.map_nil, or_iff_right List.not_mem_nil] at hnames
  case vertexVaryings => exact (Varyings.forall₂_names_of_pair hvs).1
  case fragmentVaryings => exact (Varyings.forall₂_names_of_pair hvs).2
  case outputs => exact Output.forall₂_names_of_assign hos
  case uniforms =>
    intro name
    have hmem := fun d => @Uniform.exists_mem_merge_iff _ _ hus d
    rw [ResourceGroup.mem_uniformNames_iff hmesh (Uniform.collected_of_merge hus).nodup,
      ← map_snd_uniformLines]
    constructor
    · rintro ⟨u, hu, rfl⟩
      obtain ⟨text, htext, hd⟩ := (hmem u.toDeclarator).1 ⟨u, hu, rfl⟩
      exact ⟨text, htext, u.toDeclarator, hd, rfl⟩
    · rintro ⟨text, htext, d, hd, rfl⟩
      obtain ⟨u, hu, rfl⟩ := (hmem d).2 ⟨text, htext, hd⟩
      exact ⟨u, hu, rfl⟩

/-! ## What a link looks at -/

namespace Attribute

variable {semantics : SemanticMap} {formats : FormatMap}
  {location : Semantic → Except UnsupportedSemantic Nat}

/-- Attributes at the locations of the semantics of their names, of which no two are the same. -/
structure Located (semantics : SemanticMap) (location : Semantic → Except UnsupportedSemantic Nat)
    (attributes : List Attribute) : Prop where
  semantic : ∀ a ∈ attributes, semantics[a.name]? = some a.semantic
  location : ∀ a ∈ attributes, location a.semantic = .ok a.location
  nodup : (attributes.map (·.location)).Nodup

/-- A further attribute takes a location of its own. -/
theorem Located.place {placed placed' : Array Attribute} {text : String}
    (h : Located semantics location placed.toList)
    (hplace : place semantics formats location placed text = .ok placed') :
    Located semantics location placed'.toList := by
  obtain ⟨v, -, ⟨-, rfl⟩ | ⟨s, l, hs, hl, hfree, rfl⟩⟩ := place_eq_ok_iff.1 hplace
  · exact h
  · refine ⟨?_, ?_, nodup_map_push_iff.2 ⟨h.nodup, hfree⟩⟩
    · rw [Array.toList_push]
      exact List.forall_mem_append.2 ⟨h.semantic, List.forall_mem_singleton.2 hs⟩
    · rw [Array.toList_push]
      exact List.forall_mem_append.2 ⟨h.location, List.forall_mem_singleton.2 hl⟩

/-- Attributes of one semantic would have one location. -/
theorem Located.nodup_semantics {attributes : List Attribute}
    (h : Located semantics location attributes) : (attributes.map (·.semantic)).Nodup := by
  have hlocations := List.pairwise_map.1 h.nodup
  refine List.pairwise_map.2 (hlocations.imp_of_mem fun {a b} ha hb hne hsemantic => hne ?_)
  have hlocation := h.location a ha
  rw [hsemantic, h.location b hb] at hlocation
  exact (Except.ok.inj hlocation).symm

/-- Attributes of one name would have one semantic. -/
theorem Located.nodup_names {attributes : List Attribute}
    (h : Located semantics location attributes) : (attributes.map (·.name)).Nodup := by
  have hsemantics := List.pairwise_map.1 h.nodup_semantics
  refine List.pairwise_map.2 (hsemantics.imp_of_mem fun {a b} ha hb hne hname => hne ?_)
  have hsemantic := h.semantic a ha
  rw [hname, h.semantic b hb] at hsemantic
  exact (Option.some.inj hsemantic).symm

/-- The attributes that are placed have locations of their own. -/
theorem located_of_assign {lines : List String} {attributes : List Attribute}
    (h : assign semantics formats location lines = .ok attributes) :
    Located semantics location attributes := by
  obtain ⟨placed, hplaced, rfl⟩ := Outcome.map_eq_ok_iff.1 h
  have hempty : Located semantics location (#[] : Array Attribute).toList :=
    ⟨by simp, by simp, List.nodup_nil⟩
  exact Outcome.invariant_of_foldlM_eq_ok (fun _ _ _ h hplace => Located.place h hplace) hempty
    hplaced

/-- No two placed attributes have one name. -/
theorem nodup_names_of_assign {lines : List String} {attributes : List Attribute}
    (h : assign semantics formats location lines = .ok attributes) :
    (attributes.map (·.name)).Nodup :=
  (located_of_assign h).nodup_names

/-- No two attributes are converted from integers of one name. -/
theorem nodup_integerInputs {attributes : List Attribute}
    (h : (attributes.map (·.name)).Nodup) : (integerInputs attributes).Nodup := by
  have hconverted : ((attributes.filter (·.integers.isSome)).map (·.name)).Nodup :=
    h.sublist (List.filter_sublist.map _)
  have hprefix := hconverted.map fun _ _ h => (String.append_right_inj "_private_").1 h
  rwa [List.map_map] at hprefix

end Attribute

/-- No two varyings of the vertex stage have one name. -/
theorem Varyings.nodup_names_of_pair {vertexLines fragmentLines : List String} {v : Varyings}
    (h : pair vertexLines fragmentLines = .ok v) : (v.vertex.map (·.name)).Nodup := by
  obtain ⟨produced, hproduced, hfragment⟩ := Outcome.bind_eq_ok_iff.1 h
  obtain ⟨fragment, -, hv⟩ := Outcome.bind_eq_ok_iff.1 hfragment
  obtain rfl := Except.ok.inj hv
  have hstep : ∀ (placed : Array PlacedVariable) text placed',
      (placed.toList.map (·.name)).Nodup → produce placed text = .ok placed' →
        (placed'.toList.map (·.name)).Nodup := by
    intro placed text placed' hnodup hplace
    obtain ⟨v, -, hnew, rfl⟩ := produce_eq_ok_iff.1 hplace
    exact nodup_map_push_iff.2 ⟨hnodup, hnew⟩
  have hempty : ((#[] : Array PlacedVariable).toList.map (·.name)).Nodup := List.nodup_nil
  exact Outcome.invariant_of_foldlM_eq_ok hstep hempty hproduced

/-- No two samplers of a group have one name if no two uniforms have. -/
theorem ResourceGroup.nodup_samplerNames {g : ResourceGroup} (h : g.uniformNames.Nodup) :
    g.samplerNames.Nodup := by
  have hsuffix := (List.nodup_append.1 h).2.1.map fun _ _ h =>
    (String.append_left_inj "_sampler").1 h
  rwa [List.map_map] at hsuffix

/-! ## Identifiers of linked pairs -/

/-- What is declared twice is shared by two kinds of identifiers. -/
structure Assignment.OnceInKinds (a : Assignment) : Prop where
  /-- No identifier of the vertex stage is twice of one kind. -/
  nodup : ∀ names ∈ a.vertexKinds, names.Nodup
  /-- The identifiers of the vertex stage differ if no two kinds share one. -/
  vertex : (allIdentifiers a.vertexGlobals).Nodup ↔ a.vertexKinds.Pairwise List.Disjoint
  /-- So do those of the fragment stage, if it repeats no varying and no output. -/
  fragment : (a.varyings.fragment.map (·.name)).Nodup → (a.outputs.map (·.name)).Nodup →
    ((allIdentifiers a.fragmentGlobals).Nodup ↔ a.fragmentKinds.Pairwise List.Disjoint)

/-- The vertex stage declares identifiers of all its kinds. -/
theorem Assignment.allIdentifiers_vertexGlobals_perm (a : Assignment) :
    (allIdentifiers a.vertexGlobals).Perm a.vertexKinds.flatten := by
  have hparts := ((Attribute.allIdentifiers_flatMap_globals_perm a.attributes).append_right
    (a.varyings.vertex.map (·.name))).append a.mesh.allIdentifiers_globals_perm
  rw [vertexGlobals, allIdentifiers_append, allIdentifiers_append,
    PlacedVariable.allIdentifiers_map_global]
  simpa only [vertexKinds, List.flatten_cons, List.flatten_nil, List.append_nil,
    List.append_assoc] using hparts

/-- The fragment stage declares identifiers of all its kinds. -/
theorem Assignment.allIdentifiers_fragmentGlobals_perm (a : Assignment) :
    (allIdentifiers a.fragmentGlobals).Perm a.fragmentKinds.flatten := by
  have hparts := a.mesh.allIdentifiers_globals_perm.append_left
    (a.varyings.fragment.map (·.name) ++ a.outputs.map (·.name))
  rw [fragmentGlobals, allIdentifiers_append, allIdentifiers_append,
    PlacedVariable.allIdentifiers_map_global, PlacedVariable.allIdentifiers_map_global]
  simpa only [fragmentKinds, List.flatten_cons, List.flatten_nil, List.append_nil,
    List.append_assoc] using hparts

namespace Linker

/-- What is declared twice in a pair that gets places is shared by two kinds of identifiers. -/
theorem onceInKinds_of_assign {linker : Linker} {semantics : SemanticMap} {formats : FormatMap}
    {scopes : List Scope} {vertex fragment : Payloads} {a : Assignment}
    (h : linker.assign semantics formats scopes vertex fragment = .ok a) : a.OnceInKinds := by
  obtain ⟨us, hus, hmesh⟩ := uniforms_and_mesh_of_assign h
  have hunprovided : ((unprovided scopes us).map (·.name)).Nodup :=
    (Uniform.collected_of_merge hus).nodup.sublist (List.filter_sublist.map _)
  have huniforms : a.mesh.uniformNames.Nodup :=
    (ResourceGroup.houses_of_ofUniforms hmesh hunprovided).nodup
  have hsamplers := ResourceGroup.nodup_samplerNames huniforms
  simp only [assign, Outcome.bind_eq_ok_iff] at h
  obtain ⟨⟨⟩, -, ⟨⟩, -, as, has, vs, hvs, os, -, -, -, g, -, ha⟩ := h
  obtain rfl := Except.ok.inj ha
  have hattributes := Attribute.nodup_names_of_assign has
  have hnodup : ∀ names ∈ (⟨as, vs, os, g⟩ : Assignment).vertexKinds, names.Nodup := by
    simp only [Assignment.vertexKinds, List.forall_mem_cons]
    exact ⟨hattributes, Attribute.nodup_integerInputs hattributes,
      Varyings.nodup_names_of_pair hvs, huniforms, hsamplers, List.forall_mem_nil _⟩
  constructor
  case nodup => exact hnodup
  case vertex =>
    rw [(Assignment.allIdentifiers_vertexGlobals_perm _).nodup_iff, List.nodup_flatten,
      and_iff_right hnodup]
  case fragment =>
    -- repeated varyings and outputs are not looked for, so that there are none is assumed
    intro hvaryings houtputs
    rw [(Assignment.allIdentifiers_fragmentGlobals_perm _).nodup_iff, List.nodup_flatten]
    refine and_iff_right ?_
    simp only [Assignment.fragmentKinds, List.forall_mem_cons]
    exact ⟨hvaryings, houtputs, huniforms, hsamplers, List.forall_mem_nil _⟩

/-- Both sources of a pair that is linked without scopes get the print of declarations, which
declare anew what the sources declare. What is declared twice in one of them is shared by two kinds
of identifiers. -/
theorem onceInKinds_of_link {linker : Linker} {request : LinkRequest} {pair : LinkedPair}
    (h : linker.link request = .ok pair) (hscopes : request.scopes = []) :
    (∃ vs fs, Stripped.ofSource .vertex request.vertex = .ok vs ∧
        Stripped.ofSource .fragment request.fragment = .ok fs ∧
        pair.vertex = vs.inject (print pair.assignment.vertexGlobals) ∧
        pair.fragment = fs.inject (print pair.assignment.fragmentGlobals) ∧
        pair.assignment.NamedBy request.semantics vs.payloads fs.payloads) ∧
      pair.assignment.OnceInKinds := by
  obtain ⟨-, vs, hvs, fs, hfs, a, ha, rfl⟩ := link_eq_ok_iff.1 h
  rw [hscopes] at ha
  refine ⟨⟨vs, fs, hvs, hfs, ?_, ?_, namedBy_of_assign ha⟩, onceInKinds_of_assign ha⟩
  · rw [pairOf, hscopes, ← vertexBlock_eq_print]
  · rw [pairOf, hscopes, ← fragmentBlock_eq_print]

/-- A pair with identifiers of all kinds. -/
def surfaceRequest : LinkRequest where
  vertex := "attribute vec3 p;\nattribute vec2 uv;\nvarying vec2 at;\nuniform mat4 model;\n"
  fragment := "varying vec2 at;\nout vec4 color;\nuniform sampler2D sky;\n"
  semantics := ((∅ : SemanticMap).insert "p" .position).insert "uv" (.texCoord 0)
  formats := fun s => if s = .position then some ⟨.int16, false⟩ else none
  scopes := []

/-- The identifiers of the pair, by their kinds. -/
theorem onceInKinds_of_link_surfaceRequest :
    ∃ pair, link ⟨.standard, .standard⟩ surfaceRequest = .ok pair ∧ surfaceRequest.scopes = [] ∧
      pair.assignment.vertexKinds =
        [["p", "uv"], ["_private_p"], ["at"], ["model", "sky"], ["sky_sampler"]] ∧
      pair.assignment.fragmentKinds = [["at"], ["color"], ["model", "sky"], ["sky_sampler"]] ∧
      (∃ vs fs, Stripped.ofSource .vertex surfaceRequest.vertex = .ok vs ∧
        Stripped.ofSource .fragment surfaceRequest.fragment = .ok fs ∧
        pair.vertex = vs.inject (print pair.assignment.vertexGlobals) ∧
        pair.fragment = fs.inject (print pair.assignment.fragmentGlobals) ∧
        pair.assignment.NamedBy surfaceRequest.semantics vs.payloads fs.payloads) ∧
      pair.assignment.OnceInKinds := by
  have hkinds : (link ⟨.standard, .standard⟩ surfaceRequest).map (fun pair =>
      (pair.assignment.vertexKinds, pair.assignment.fragmentKinds)) =
        .ok ([["p", "uv"], ["_private_p"], ["at"], ["model", "sky"], ["sky_sampler"]],
          [["at"], ["color"], ["model", "sky"], ["sky_sampler"]]) := by
    decide +kernel
  obtain ⟨pair, hlink, hkinds⟩ := Outcome.map_eq_ok_iff.1 hkinds
  obtain ⟨hvertex, hfragment⟩ := Prod.mk.inj hkinds
  exact ⟨pair, hlink, rfl, hvertex, hfragment, onceInKinds_of_link hlink rfl⟩

/-- A pair with a value that is named like a sampler. -/
def namesakeRequest : LinkRequest where
  vertex := "uniform sampler2D sky;\nuniform float sky_sampler;\n"
  fragment := ""
  semantics := ∅
  formats := fun _ => none
  scopes := []

/-- The vertex source of the pair when it is linked. -/
def namesakeVertex : String :=
  "layout(set = 2, binding = 0, std140) uniform ub_mesh \x7b\n"
    ++ "    float sky_sampler;\n"
    ++ "\x7d;\n"
    ++ "layout(set = 2, binding = 1) uniform texture2D sky;\n"
    ++ "layout(set = 2, binding = 2) uniform sampler sky_sampler;\n\n\n\n"

/-- The pair is linked, and the value and the sampler are declared under one name. -/
theorem not_nodup_allIdentifiers_namesakeRequest :
    ∃ pair, link ⟨.standard, .standard⟩ namesakeRequest = .ok pair ∧
      namesakeRequest.scopes = [] ∧ pair.vertex = namesakeVertex ∧
      allIdentifiers pair.assignment.vertexGlobals = ["sky_sampler", "sky", "sky_sampler"] ∧
      ¬ (allIdentifiers pair.assignment.vertexGlobals).Nodup := by
  have htexts : (link ⟨.standard, .standard⟩ namesakeRequest).map (fun pair =>
      (pair.vertex, allIdentifiers pair.assignment.vertexGlobals)) =
        .ok (namesakeVertex, ["sky_sampler", "sky", "sky_sampler"]) := by
    decide +kernel
  obtain ⟨pair, hlink, htexts⟩ := Outcome.map_eq_ok_iff.1 htexts
  obtain ⟨hvertex, hidentifiers⟩ := Prod.mk.inj htexts
  refine ⟨pair, hlink, rfl, hvertex, hidentifiers, ?_⟩
  rw [hidentifiers]
  decide

/-- A pair whose fragment stage repeats a varying and an output. -/
def repeatedRequest : LinkRequest where
  vertex := "varying vec2 at;\n"
  fragment := "varying vec2 at;\nvarying vec2 at;\nout vec4 c;\nout vec4 c;\n"
  semantics := ∅
  formats := fun _ => none
  scopes := []

/-- The pair is linked, and declares both twice, though no two kinds share an identifier. So it is
not for nothing that `onceInKinds_of_assign` assumes that nothing is repeated there. -/
theorem not_nodup_allIdentifiers_repeatedRequest :
    ∃ pair, link ⟨.standard, .standard⟩ repeatedRequest = .ok pair ∧
      pair.assignment.fragmentKinds = [["at", "at"], ["c", "c"], [], []] ∧
      pair.assignment.fragmentKinds.Pairwise List.Disjoint ∧
      ¬ (allIdentifiers pair.assignment.fragmentGlobals).Nodup := by
  have hidentifiers : (link ⟨.standard, .standard⟩ repeatedRequest).map (fun pair =>
      (pair.assignment.fragmentKinds, allIdentifiers pair.assignment.fragmentGlobals)) =
        .ok ([["at", "at"], ["c", "c"], [], []], ["at", "at", "c", "c"]) := by
    decide +kernel
  obtain ⟨pair, hlink, hidentifiers⟩ := Outcome.map_eq_ok_iff.1 hidentifiers
  obtain ⟨hkinds, hall⟩ := Prod.mk.inj hidentifiers
  refine ⟨pair, hlink, hkinds, ?_, ?_⟩
  · rw [hkinds]
    simp [List.Disjoint]
  · rw [hall]
    decide

end Linker

end ShaderInterface
