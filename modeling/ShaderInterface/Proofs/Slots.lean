import Mathlib.Data.List.Nodup
import Mathlib.Data.Prod.Basic
import ShaderInterface.Proofs.Homes
import ShaderInterface.Proofs.WrittenDeclarators

/-!
# Slots of the bind groups

Every resource of a linked pair has a group and a slot of its own. In a group the slots are taken
without gaps, first by the buffer and then by the textures with their samplers, and the code of the
group declares its resources at the places that its binding table records: the group is packed
(`ResourceGroup.IsPacked`). Scopes that the linker has prepared for the groups in front of the mesh
group keep out of each other's way, since their groups differ (`Linker.places_of_link`).

A group may have any name, and its name stands in its code. A name that is a layout qualifier itself
declares a place that no table records (`Linker.strayPlace_of_link_strayRequest`); other names do
not.
-/

namespace ShaderInterface

open Text (layouts HasLayouts)

namespace BindingTable

/-- The group and the slot of the buffer, if there is one. -/
def bufferPlaces (table : BindingTable) : List (Nat × Nat) :=
  table.buffer.toList.map fun buffer => (table.group, buffer.slot)

/-- The groups and slots of the textures and their samplers. -/
def texturePlaces (table : BindingTable) : List (Nat × Nat) :=
  table.textures.flatMap fun t => [(table.group, t.textureSlot), (table.group, t.samplerSlot)]

/-- The groups and slots of all resources. -/
def places (table : BindingTable) : List (Nat × Nat) :=
  table.bufferPlaces ++ table.texturePlaces

end BindingTable

/-! ## Slots of a group -/

/-- Textures take two slots each, one after the other. -/
theorem Texture.BoundFrom.flatMap_places {tables : HostTables} {sampling : HighpSampling}
    {first : Nat} {us : List Uniform} {ts : List Texture}
    (h : BoundFrom tables sampling first us ts) (group : Nat) :
    ts.flatMap (fun t => [(group, t.textureSlot), (group, t.samplerSlot)]) =
      (List.range' first (2 * ts.length)).map (group, ·) := by
  induction h with
  | nil first => rfl
  | @cons first u us t ts head tail ih =>
    obtain ⟨-, dimension, -, rfl⟩ := ofUniform_eq_ok_iff.1 head
    rw [List.flatMap_cons, ih, List.length_cons, Nat.mul_succ, List.range'_succ, List.range'_succ]
    rfl

/-- The resources of the group take the slots from 0 on, the buffer the first of them, and the code
of the group declares them there. Whatever layout qualifiers the name of the group has stand in the
code as well. -/
structure ResourceGroup.IsPacked (g : ResourceGroup) : Prop where
  places : g.bindings.places =
    (List.range (2 * g.bindings.textures.length + g.bindings.buffer.toList.length)).map (g.group, ·)
  buffer : ∀ buffer ∈ g.bindings.buffer, buffer.slot = 0
  code : layouts g.code.toList =
    g.bindings.bufferPlaces.flatMap (fun place => place :: layouts g.name.toList) ++
      g.bindings.texturePlaces

/-- If the name of a packed group has no layout qualifiers, its code has those that its binding
table records. -/
theorem ResourceGroup.IsPacked.layouts_eq_places {g : ResourceGroup} (h : g.IsPacked)
    (hname : layouts g.name.toList = []) : layouts g.code.toList = g.bindings.places := by
  rw [h.code, hname, BindingTable.places, List.flatMap_singleton']

/-! ## Code of a group -/

/-- The line of a field has no layout qualifiers. -/
theorem BufferLayout.hasLayouts_fieldLine {f : Field} {text : String}
    (hwritten : f.toDeclarator.IsWritten text) : HasLayouts (fieldLine f).toList [] := by
  have hfront : '(' ∉ ("    " ++ Declarator.precisionText f.precision).toList := by
    rcases f.precision with _ | _ | _ | _ <;> decide
  have htype : ' ' ∉ f.typeName.toList := fun hmem =>
    absurd (hwritten.typeWord.not_isBlank _ hmem) (by decide)
  have hback : '=' ∉ (" " ++ (f.name ++ Declarator.sizeText f.arraySize) ++ ";").toList := by
    have hname : '=' ∉ f.name.toList := Text.notMem_of_isIdentifier hwritten.name (by decide)
    have hsize : '=' ∉ (Declarator.sizeText f.arraySize).toList := fun hmem =>
      absurd (Declarator.eq_or_isDigit_of_mem_sizeText hmem) (by decide)
    simp [hname, hsize]
  have hline : (fieldLine f).toList =
      ("    " ++ Declarator.precisionText f.precision).toList ++ (f.typeName.toList ++
        (" " ++ (f.name ++ Declarator.sizeText f.arraySize) ++ ";").toList) ++ ['\n'] := by
    rw [fieldLine, Declarator.render_eq]
    simp only [String.toList_append, List.append_assoc]
    rfl
  rw [hline]
  exact .line (Text.not_setWords_infix hfront htype hback)

/-- The block of a buffer has its own layout qualifier and those in the name of the group. -/
theorem BufferLayout.hasLayouts_declaration {layout : BufferLayout}
    (hfields : ∀ f ∈ layout.fields, HasLayouts (fieldLine f).toList []) (group slot : Nat)
    (groupName : String) :
    HasLayouts (layout.declaration group slot groupName).toList
      ((group, slot) :: layouts groupName.toList) := by
  have htext : (layout.declaration group slot groupName).toList =
      Text.qualifier group slot ++ ',' :: (" std140) uniform ub_".toList ++
        (groupName.toList ++ [' ', '\x7b']) ++ ['\n'] ++
          layout.fields.flatMap (fun f => (fieldLine f).toList) ++ "\x7d;\n".toList) := by
    unfold declaration Text.qualifier
    simp only [String.toList_append, String.toList_join, List.flatMap_map, List.append_assoc]
    rfl
  rw [htext]
  refine .qualifier_append (by decide) ?_
  have hstart : HasLayouts ", std140) uniform ub_".toList [] := .of_notMem (by decide)
  have hnewline : HasLayouts ['\n'] [] := .of_notMem (by decide)
  have hstop : HasLayouts "\x7d;\n".toList [] := .of_notMem (by decide)
  have hlines := HasLayouts.flatMap hfields
  rw [List.flatMap_eq_nil_iff.2 fun _ _ => rfl] at hlines
  have hblock := (((hstart.append (.brace groupName.toList)).append hnewline).append hlines).append
    hstop
  simp only [List.nil_append, List.append_nil] at hblock
  exact hblock

/-- The line of a resource has one layout qualifier. -/
theorem Texture.hasLayouts_resourceLine {typeName name : String} (htype : '(' ∉ typeName.toList)
    (hname : '(' ∉ name.toList) (group slot : Nat) :
    HasLayouts (resourceLine group slot typeName name).toList [(group, slot)] := by
  have htext : (resourceLine group slot typeName name).toList =
      Text.qualifier group slot ++ ')' :: (" uniform ".toList ++ typeName.toList ++ [' '] ++
        name.toList ++ [';'] ++ ['\n']) := by
    unfold resourceLine Text.qualifier
    simp only [String.toList_append, List.append_assoc]
    rfl
  rw [htext]
  refine .qualifier_append (by decide) ?_
  rw [← List.cons_append]
  exact .line_of_notMem (by simp [htype, hname])

/-- The lines of a texture have the layout qualifiers of the texture and its sampler. -/
theorem Texture.hasLayouts_declaration {t : Texture} (hname : '(' ∉ t.name.toList) (group : Nat) :
    HasLayouts (t.declaration group).toList [(group, t.textureSlot), (group, t.samplerSlot)] := by
  have htexture : '(' ∉ (t.sampleType.textureStem ++ t.dimension.typeName).toList := by
    cases t.sampleType <;> cases t.dimension <;> decide
  have hsampler : '(' ∉ t.sampleType.samplerType.toList := by
    cases t.sampleType <;> decide
  have hsamplerName : '(' ∉ t.samplerName.toList := by
    rw [samplerName, String.toList_append, List.mem_append, not_or]
    exact ⟨hname, by decide⟩
  unfold declaration
  rw [String.toList_append]
  exact (hasLayouts_resourceLine htexture hname _ _).append
    (hasLayouts_resourceLine hsampler hsamplerName _ _)

/-- The code of a group has the layout qualifiers of its resources and those in its name. -/
theorem ResourceGroup.layouts_code {g : ResourceGroup}
    (hbuffer : g.bindings.buffer = g.layout.map (bufferBinding g.name))
    (hfields : ∀ f ∈ g.fields, HasLayouts (BufferLayout.fieldLine f).toList [])
    (htextures : ∀ t ∈ g.bindings.textures, '(' ∉ t.name.toList) :
    layouts g.code.toList =
      g.bindings.bufferPlaces.flatMap (fun place => place :: layouts g.name.toList) ++
        g.bindings.texturePlaces := by
  have hbufferCode : HasLayouts g.bufferCode.toList
      (g.bindings.bufferPlaces.flatMap fun place => place :: layouts g.name.toList) := by
    rw [bufferCode, BindingTable.bufferPlaces, hbuffer]
    rw [fields] at hfields
    cases hlayout : g.layout with
    | none => exact .nil
    | some layout =>
      rw [hlayout] at hfields
      simpa [group, bufferBinding] using
        BufferLayout.hasLayouts_declaration hfields g.group BindingTable.bufferSlot g.name
  have htextureCode :
      HasLayouts g.bindings.textureDeclarations.toList g.bindings.texturePlaces := by
    rw [BindingTable.textureDeclarations, String.toList_join, List.flatMap_map]
    exact .flatMap fun t ht => Texture.hasLayouts_declaration (htextures t ht) g.bindings.group
  rw [code, String.toList_append]
  exact (hbufferCode.append htextureCode).layouts_eq

namespace ResourceGroup

variable {tables : HostTables} {sampling : HighpSampling} {group : Nat} {name : String}

/-- The resources of a group that is made of uniforms have slots without gaps. -/
theorem places_of_ofParts {values textures : List Uniform} {g : ResourceGroup}
    (h : ofParts tables sampling group name values textures = .ok g) :
    g.bindings.places = (List.range (2 * g.bindings.textures.length +
      g.bindings.buffer.toList.length)).map (g.group, ·) := by
  obtain ⟨ms, -, ts, hts, rfl⟩ := ofParts_eq_ok_iff.1 h
  have htextures := hts.flatMap_places group
  by_cases hms : ms = []
  · rw [if_pos hms] at htextures
    simp [BindingTable.places, BindingTable.bufferPlaces, BindingTable.texturePlaces, htextures,
      ResourceGroup.group, BufferLayout.ofMembers?, hms, List.range_eq_range']
  · rw [if_neg hms] at htextures
    simp [BindingTable.places, BindingTable.bufferPlaces, BindingTable.texturePlaces, htextures,
      ResourceGroup.group, BufferLayout.ofMembers?, hms, List.range_eq_range', List.range'_succ,
      bufferBinding, BindingTable.bufferSlot]

/-- A group has the number for which it is made. -/
theorem group_of_ofParts {values textures : List Uniform} {g : ResourceGroup}
    (h : ofParts tables sampling group name values textures = .ok g) : g.group = group := by
  obtain ⟨ms, -, ts, -, rfl⟩ := ofParts_eq_ok_iff.1 h
  rfl

/-- A group that is made of uniforms is packed. -/
theorem isPacked_of_ofUniforms {us : List Uniform} (hus : ∀ u ∈ us, u.IsRead) {g : ResourceGroup}
    (h : ofUniforms tables sampling group name us = .ok g) : g.IsPacked := by
  have hplaces := places_of_ofParts h
  obtain ⟨ms, hms, ts, hts, rfl⟩ := ofParts_eq_ok_iff.1 h
  constructor
  case places => exact hplaces
  case buffer =>
    intro buffer hbuffer
    obtain ⟨layout, -, rfl⟩ := Option.map_eq_some_iff.1 hbuffer
    rfl
  case code =>
    refine layouts_code rfl (fun f hf => ?_) fun t ht => ?_
    · have hdeclared : f.toDeclarator ∈ (us.filter (!·.isTexture)).map (·.toDeclarator) := by
        rw [← BufferLayout.map_toDeclarator_of_mapM hms,
          ← BufferLayout.map_toDeclarator_fieldsFrom 0, ← fields_ofMembers?]
        exact List.mem_map_of_mem hf
      have hvalues : ∀ u ∈ us.filter (!·.isTexture), u.IsRead := fun u hu =>
        hus u (List.mem_filter.1 hu).1
      obtain ⟨text, hwritten⟩ := Uniform.exists_isWritten_of_mem hvalues hdeclared
      exact BufferLayout.hasLayouts_fieldLine hwritten
    · have hnamed : t.name ∈ (us.filter (·.isTexture)).map (·.name) := by
        rw [← map_name_of_map_viewOf hts.map_eq]
        exact List.mem_map_of_mem ht
      obtain ⟨u, hu, hname⟩ := List.mem_map.1 hnamed
      have hread := hus u (List.mem_filter.1 hu).1
      rw [← hname]
      exact Text.notMem_of_isIdentifier (Declarator.isIdentifier_of_parse hread) (by decide)

/-- The places of a packed group are in that group. -/
theorem IsPacked.fst_eq {g : ResourceGroup} (h : g.IsPacked) {place : Nat × Nat}
    (hplace : place ∈ g.bindings.places) : place.1 = g.group := by
  rw [h.places] at hplace
  obtain ⟨slot, -, rfl⟩ := List.mem_map.1 hplace
  rfl

/-- No two resources of a packed group have one place. -/
theorem IsPacked.nodup {g : ResourceGroup} (h : g.IsPacked) : g.bindings.places.Nodup := by
  rw [h.places]
  exact List.nodup_range.map (Prod.mk_right_injective g.group)

/-- No two resources of packed groups of different numbers have one place. -/
theorem nodup_flatMap_places {gs : List ResourceGroup} (hpacked : ∀ g ∈ gs, g.IsPacked)
    (hgroups : (gs.map (·.group)).Nodup) : (gs.flatMap (·.bindings.places)).Nodup := by
  refine List.nodup_flatMap.2 ⟨fun g hg => (hpacked g hg).nodup, ?_⟩
  refine (List.pairwise_map.1 hgroups).imp_of_mem fun {g g'} hg hg' hne place hplace hplace' => ?_
  exact hne (((hpacked g hg).fst_eq hplace).symm.trans ((hpacked g' hg').fst_eq hplace'))

end ResourceGroup

/-! ## Linked pairs -/

namespace Linker

/-- A group that is prepared for a number in front of the mesh group is packed. -/
theorem isPacked_of_outerGroup {linker : Linker} {number : Nat} {lines : List String}
    {g : ResourceGroup} (h : linker.outerGroup number lines = .ok g) :
    g.IsPacked ∧ g.group = number ∧ number < linker.options.groups.meshGroup := by
  obtain ⟨name, hname, us, hus, hg⟩ := uniforms_of_outerGroup h
  exact ⟨ResourceGroup.isPacked_of_ofUniforms (Uniform.collected_of_merge hus).isRead hg,
    ResourceGroup.group_of_ofParts hg, (List.getElem?_eq_some_iff.1 hname).1⟩

/-- The mesh group of a linked pair is packed. -/
theorem isPacked_mesh_of_link {linker : Linker} {request : LinkRequest} {pair : LinkedPair}
    (h : linker.link request = .ok pair) :
    pair.assignment.mesh.IsPacked ∧
      pair.assignment.mesh.group = linker.options.groups.meshGroup := by
  obtain ⟨-, vs, -, fs, -, a, ha, rfl⟩ := link_eq_ok_iff.1 h
  obtain ⟨us, hus, hmesh⟩ := uniforms_and_mesh_of_assign ha
  refine ⟨ResourceGroup.isPacked_of_ofUniforms (fun u hu => ?_) hmesh,
    ResourceGroup.group_of_ofParts hmesh⟩
  exact (Uniform.collected_of_merge hus).isRead u (List.mem_filter.1 hu).1

/-- If the scopes of a linked pair are groups that the linker has prepared, each for the place at
which it stands, no two resources of these groups and of the mesh group have one place. The code of
each group declares its resources at the places that its table records, and nothing else, if the
name of the group has no layout qualifiers. -/
theorem places_of_link {linker : Linker} {request : LinkRequest} {pair : LinkedPair}
    {gs : List ResourceGroup}
    (h : linker.link { request with scopes := gs.map (·.scope) } = .ok pair)
    (hprepared : ∀ number g, gs[number]? = some g →
      ∃ lines, linker.outerGroup number lines = .ok g) :
    ((gs ++ [pair.assignment.mesh]).flatMap (·.bindings.places)).Nodup ∧
      ∀ g ∈ gs ++ [pair.assignment.mesh], g.IsPacked ∧
        (layouts g.name.toList = [] → layouts g.code.toList = g.bindings.places) := by
  obtain ⟨hmesh, hmeshGroup⟩ := isPacked_mesh_of_link h
  have houter : ∀ number g, gs[number]? = some g →
      g.IsPacked ∧ g.group = number ∧ number < linker.options.groups.meshGroup := by
    intro number g hg
    obtain ⟨lines, hlines⟩ := hprepared number g hg
    exact isPacked_of_outerGroup hlines
  have hpacked : ∀ g ∈ gs ++ [pair.assignment.mesh], g.IsPacked := by
    intro g hg
    rcases List.mem_append.1 hg with hg | hg
    · obtain ⟨number, hnumber⟩ := List.getElem?_of_mem hg
      exact (houter number g hnumber).1
    · rw [List.mem_singleton.1 hg]
      exact hmesh
  have hnumbers : gs.map (·.group) = List.range gs.length := by
    refine List.ext_getElem (by simp) fun number hnumber _ => ?_
    rw [List.length_map] at hnumber
    rw [List.getElem_map, List.getElem_range]
    exact (houter number gs[number] (List.getElem?_eq_getElem hnumber)).2.1
  have hgroups : ((gs ++ [pair.assignment.mesh]).map (·.group)).Nodup := by
    rw [List.map_append, List.map_singleton, hmeshGroup]
    refine List.nodup_append.2 ⟨hnumbers ▸ List.nodup_range, List.nodup_singleton _, ?_⟩
    intro n hn m hm heq
    obtain ⟨g, hg, rfl⟩ := List.mem_map.1 hn
    obtain ⟨number, hg⟩ := List.getElem?_of_mem hg
    obtain ⟨-, hgroup, hlt⟩ := houter number g hg
    rw [hgroup, List.mem_singleton.1 hm] at heq
    exact Nat.ne_of_lt hlt heq
  exact ⟨ResourceGroup.nodup_flatMap_places hpacked hgroups,
    fun g hg => ⟨hpacked g hg, (hpacked g hg).layouts_eq_places⟩⟩

/-- A lit surface, of which the scopes provide the matrices and the shadows. -/
def litRequest : LinkRequest where
  vertex := "attribute vec3 position;\nuniform mat4 view;\nuniform mat4 model;\n"
  fragment := "uniform sampler2DShadow shadows;\nuniform sampler2D albedo;\nuniform vec4 tint;\n"
  semantics := ∅
  formats := fun _ => none
  scopes := []

/-- The scopes of the view and the material with the mesh group of a lit surface. -/
theorem places_of_link_litRequest :
    ∃ view material pair,
      outerGroup ⟨.standard, .standard⟩ 0 ["mat4 view", "sampler2DShadow shadows"] = .ok view ∧
      outerGroup ⟨.standard, .standard⟩ 1 ["samplerCube sky", "sampler2D noise"] = .ok material ∧
      link ⟨.standard, .standard⟩
        { litRequest with scopes := [view, material].map (·.scope) } = .ok pair ∧
      ([view, material] ++ [pair.assignment.mesh]).map (·.bindings.places) =
        [[(0, 0), (0, 1), (0, 2)], [(1, 0), (1, 1), (1, 2), (1, 3)], [(2, 0), (2, 1), (2, 2)]] ∧
      (([view, material] ++ [pair.assignment.mesh]).flatMap (·.bindings.places)).Nodup ∧
      ∀ g ∈ [view, material] ++ [pair.assignment.mesh], g.IsPacked ∧
        (layouts g.name.toList = [] → layouts g.code.toList = g.bindings.places) := by
  have hplaces : (do
      let view ← outerGroup ⟨.standard, .standard⟩ 0 ["mat4 view", "sampler2DShadow shadows"]
      let material ← outerGroup ⟨.standard, .standard⟩ 1 ["samplerCube sky", "sampler2D noise"]
      let pair ← link ⟨.standard, .standard⟩
        { litRequest with scopes := [view, material].map ResourceGroup.scope }
      return ([view, material] ++ [pair.assignment.mesh]).map fun g => g.bindings.places :
        Except LinkError (List (List (Nat × Nat)))) =
          .ok [[(0, 0), (0, 1), (0, 2)], [(1, 0), (1, 1), (1, 2), (1, 3)],
            [(2, 0), (2, 1), (2, 2)]] := by
    decide +kernel
  obtain ⟨view, hview, hplaces⟩ := Outcome.bind_eq_ok_iff.1 hplaces
  obtain ⟨material, hmaterial, hplaces⟩ := Outcome.bind_eq_ok_iff.1 hplaces
  obtain ⟨pair, hpair, hplaces⟩ := Outcome.bind_eq_ok_iff.1 hplaces
  refine ⟨view, material, pair, hview, hmaterial, hpair, Except.ok.inj hplaces,
    places_of_link hpair fun number g hg => ?_⟩
  match number, hg with
  | 0, hg => exact ⟨_, Option.some.inj hg ▸ hview⟩
  | 1, hg => exact ⟨_, Option.some.inj hg ▸ hmaterial⟩

/-- A pair with one value. -/
def strayRequest : LinkRequest where
  vertex := "uniform float a;\n"
  fragment := ""
  semantics := ∅
  formats := fun _ => none
  scopes := []

/-- The name of the only group ends up in the code of the mesh as a layout qualifier, of a place at
which no resource is bound. -/
theorem strayPlace_of_link_strayRequest :
    ∃ pair, link ⟨.standard, ⟨.unfilterable, ⟨[], "layout(set = 7, binding = 9"⟩⟩⟩ strayRequest =
        .ok pair ∧
      (7, 9) ∈ layouts pair.assignment.mesh.code.toList ∧
      (7, 9) ∉ pair.assignment.mesh.bindings.places := by
  have hplaces : (link ⟨.standard, ⟨.unfilterable, ⟨[], "layout(set = 7, binding = 9"⟩⟩⟩
      strayRequest).map (fun pair =>
        (layouts pair.assignment.mesh.code.toList, pair.assignment.mesh.bindings.places)) =
          .ok ([(0, 0), (7, 9)], [(0, 0)]) := by
    decide +kernel
  obtain ⟨pair, hpair, hplaces⟩ := Outcome.map_eq_ok_iff.1 hplaces
  obtain ⟨hcode, htable⟩ := Prod.mk.inj hplaces
  refine ⟨pair, hpair, ?_, ?_⟩
  · rw [hcode]
    decide
  · rw [htable]
    decide

end Linker

end ShaderInterface
