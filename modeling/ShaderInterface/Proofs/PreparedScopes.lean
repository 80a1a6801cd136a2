import ShaderInterface.Proofs.Homes
import ShaderInterface.Proofs.Rewriting

/-!
# Prepared scopes

A scope that is prepared from uniform lines answers for the names of its lines, each under its kind,
and for no others (`Linker.answersFor_of_outerGroup`), although it only looks at the buffer and the
textures that the lines became. So a pair of shaders whose uniforms all have a line of their name
and kind in some prepared scope leaves nothing to the mesh (`Linker.prepared_scopes`).
-/

namespace ShaderInterface

open Code (utf8)
open Source (Declaration Stripped rewritten)

/-- One of the lines declares a uniform of the given name, as a texture or as a value. -/
def DeclaresUniform (lines : List String) (name : String) (texture : Bool) : Prop :=
  ∃ line ∈ lines, ∃ d, Declarator.parse line = .ok d ∧ d.name = name ∧ d.isTexture = texture

/-- The scope provides what the lines declare, and nothing else. -/
structure Scope.AnswersFor (scope : Scope) (lines : List String) : Prop where
  hasUniform : ∀ name, scope.hasUniform name ↔ DeclaresUniform lines name false
  hasTexture : ∀ name, scope.hasTexture name ↔ DeclaresUniform lines name true
  /-- No name is that of a value and of a texture. -/
  apart : ∀ name, ¬ (scope.hasUniform name ∧ scope.hasTexture name)

/-! ## What a group answers -/

namespace ResourceGroup.Houses

variable {g : ResourceGroup} {tables : HostTables} {sampling : HighpSampling}
  {values textures : List Uniform}

/-- A group has the names of its values as uniforms. -/
theorem hasUniform_iff (h : g.Houses tables sampling values textures) (name : String) :
    g.hasUniform name ↔ ∃ u ∈ values, u.name = name := by
  have hfound : g.hasUniform name = (g.layout.bind (·.field? name)).isSome := by
    rw [hasUniform]
    cases g.layout <;> rfl
  rw [hfound, ← Option.isSome_map (f := (·.toDeclarator)), Option.isSome_iff_exists]
  simp only [h.field?]
  exact ⟨fun ⟨_, u, hu, hname, _⟩ => ⟨u, hu, hname⟩, fun ⟨u, hu, hname⟩ => ⟨_, u, hu, hname, rfl⟩⟩

/-- A group has the names of its texture uniforms as textures. -/
theorem hasTexture_iff (h : g.Houses tables sampling values textures) (name : String) :
    g.hasTexture name ↔ ∃ u ∈ textures, u.name = name := by
  rw [hasTexture, ← Option.isSome_map (f := viewOf), Option.isSome_iff_exists]
  simp only [h.texture?]
  exact ⟨fun ⟨_, u, hu, hname, _⟩ => ⟨u, hu, hname⟩, fun ⟨u, hu, hname⟩ => ⟨_, u, hu, hname, rfl⟩⟩

/-- No name is that of a value and of a texture of a group. -/
theorem apart (h : g.Houses tables sampling values textures) (name : String) :
    ¬ (g.hasUniform name ∧ g.hasTexture name) := by
  rw [h.hasUniform_iff, h.hasTexture_iff]
  rintro ⟨⟨u, hu, hvalue⟩, v, hv, htexture⟩
  have hnodup := h.nodup
  rw [map_name_of_map_toDeclarator h.fields, map_name_of_map_viewOf h.bound] at hnodup
  exact (List.nodup_append.1 hnodup).2.2 _ (List.mem_map_of_mem hu) _ (List.mem_map_of_mem hv)
    (hvalue.trans htexture.symm)

end ResourceGroup.Houses

namespace Linker

variable {linker : Linker}

/-- Of merged lines, the uniforms of one kind have the names that the lines declare of that kind. -/
theorem exists_mem_filter_iff {lines : List String} {us : List Uniform}
    (h : Uniform.merge (lines.map (Stage.vertex, ·)) = .ok us) (name : String) (texture : Bool) :
    (∃ u ∈ us.filter (·.isTexture == texture), u.name = name) ↔
      DeclaresUniform lines name texture := by
  have hdeclared : ∀ d, (∃ u ∈ us, u.toDeclarator = d) ↔
      ∃ line ∈ lines, Declarator.parse line = .ok d := by
    intro d
    rw [Uniform.exists_mem_merge_iff h, List.map_map]
    simp [Function.comp_def]
  constructor
  · rintro ⟨u, hu, hname⟩
    obtain ⟨hu, hkind⟩ := List.mem_filter.1 hu
    obtain ⟨line, hline, hd⟩ := (hdeclared u.toDeclarator).1 ⟨u, hu, rfl⟩
    exact ⟨line, hline, u.toDeclarator, hd, hname, eq_of_beq hkind⟩
  · rintro ⟨line, hline, d, hd, hname, hkind⟩
    obtain ⟨u, hu, rfl⟩ := (hdeclared d).2 ⟨line, hline, hd⟩
    exact ⟨u, List.mem_filter.2 ⟨hu, beq_iff_eq.2 hkind⟩, hname⟩

/-- A prepared scope answers for its lines. -/
theorem answersFor_of_outerGroup {number : Nat} {lines : List String} {g : ResourceGroup}
    (h : linker.outerGroup number lines = .ok g) : g.scope.AnswersFor lines := by
  obtain ⟨name, -, us, hus, hg⟩ := uniforms_of_outerGroup h
  have hhouses := ResourceGroup.houses_of_ofUniforms hg (Uniform.collected_of_merge hus).nodup
  have hvalues : us.filter (!·.isTexture) = us.filter (·.isTexture == false) := by
    simp
  have htextures : us.filter (·.isTexture) = us.filter (·.isTexture == true) := by
    simp
  rw [hvalues, htextures] at hhouses
  exact {
    hasUniform := fun name => (hhouses.hasUniform_iff name).trans (exists_mem_filter_iff hus name _)
    hasTexture := fun name => (hhouses.hasTexture_iff name).trans (exists_mem_filter_iff hus name _)
    apart := hhouses.apart }

end Linker

/-! ## Pairs that leave nothing to the mesh -/

namespace LinkRequest

/-- The sources of the pair declare the uniform. -/
def DeclaresUniform (request : LinkRequest) (d : Declarator) : Prop :=
  ∃ vs fs, Declaration.ofSource .vertex request.vertex = .ok vs ∧
    Declaration.ofSource .fragment request.fragment = .ok fs ∧
    ∃ text ∈ Declaration.payloads vs .uniform ++ Declaration.payloads fs .uniform,
      Declarator.parse text = .ok d

/-- One of the scopes was prepared, by any linker, from lines of which one declares the name of the
uniform under the same kind. -/
def Covers (request : LinkRequest) (d : Declarator) : Prop :=
  ∃ (linker : Linker) (number : Nat) (lines : List String) (g : ResourceGroup),
    linker.outerGroup number lines = .ok g ∧ g.scope ∈ request.scopes ∧
      ShaderInterface.DeclaresUniform lines d.name d.isTexture

/-- What is covered is provided. -/
theorem Covers.exists_provides {request : LinkRequest} {d : Declarator} (h : request.Covers d) :
    ∃ scope ∈ request.scopes, scope.Provides d := by
  obtain ⟨linker, number, lines, g, hg, hscope, hline⟩ := h
  have hanswers := Linker.answersFor_of_outerGroup hg
  refine ⟨g.scope, hscope, ?_⟩
  rw [Scope.Provides]
  cases hkind : d.isTexture with
  | true =>
    rw [hkind] at hline
    exact (hanswers.hasTexture d.name).2 hline
  | false =>
    rw [hkind] at hline
    exact (hanswers.hasUniform d.name).2 hline

end LinkRequest

/-- An empty section at the end adds nothing to a block. -/
theorem Block.inOrder_concat_empty (front : List String) (code code' : String) :
    inOrder (front ++ [code, code', ""]) = inOrder (front ++ [code, code']) := by
  have hsections : front ++ [code, code', ""] = (front ++ [code, code']) ++ [""] := by simp
  rw [hsections, inOrder, List.filter_append, inOrder]
  simp

/-- The mesh has no resources, and no code in either source. -/
structure Linker.LeavesNothing (linker : Linker) (request : LinkRequest) (pair : LinkedPair) :
    Prop where
  layout : pair.assignment.mesh.layout = none
  bindings : pair.assignment.mesh.bindings = .empty linker.options.groups.meshGroup
  code : pair.assignment.mesh.code = ""
  /-- The block of the vertex source holds the code of the scopes and that of the variables. -/
  vertex : ∃ ds, Declaration.ofSource .vertex request.vertex = .ok ds ∧
    utf8 pair.vertex = rewritten request.vertex (Block.inOrder (request.scopes.map (·.code) ++
      [Attribute.declarations pair.assignment.attributes,
        pair.assignment.varyings.vertexCode])) ds
  /-- The block of the fragment source holds the code of the scopes and that of the variables. -/
  fragment : ∃ ds, Declaration.ofSource .fragment request.fragment = .ok ds ∧
    utf8 pair.fragment = rewritten request.fragment (Block.inOrder (request.scopes.map (·.code) ++
      [pair.assignment.varyings.fragmentCode,
        PlacedVariable.declarations .out pair.assignment.outputs])) ds

namespace Linker

variable {linker : Linker} {request : LinkRequest} {pair : LinkedPair}

/-- If all declared uniforms are covered, none is left for the mesh. -/
theorem unprovided_eq_nil (hcovers : ∀ d, request.DeclaresUniform d → request.Covers d)
    {vs fs : Stripped} (hvs : Stripped.ofSource .vertex request.vertex = .ok vs)
    (hfs : Stripped.ofSource .fragment request.fragment = .ok fs) {us : List Uniform}
    (hus : uniforms vs.payloads fs.payloads = .ok us) : unprovided request.scopes us = [] := by
  obtain ⟨-, dsv, hdsv, hvertex⟩ := Stripped.exists_ofSource_eq_ok_iff.1 ⟨vs, hvs, rfl⟩
  obtain ⟨-, dsf, hdsf, hfragment⟩ := Stripped.exists_ofSource_eq_ok_iff.1 ⟨fs, hfs, rfl⟩
  rw [← hvertex, ← hfragment] at hus
  refine List.filter_eq_nil_iff.2 fun u hu hnone => ?_
  obtain ⟨text, htext, hd⟩ := (Uniform.exists_mem_merge_iff hus).1 ⟨u, hu, rfl⟩
  rw [← uniformLines, map_snd_uniformLines] at htext
  obtain ⟨scope, hscope, hprovides⟩ :=
    (hcovers u.toDeclarator ⟨dsv, dsf, hdsv, hdsf, text, htext, hd⟩).exists_provides
  rw [Option.isNone_iff_eq_none, Scope.provider?_eq_none_iff] at hnone
  exact hnone scope hscope hprovides

/-- A linked pair of which all uniforms are covered leaves nothing to the mesh. -/
theorem leavesNothing_of_covers (h : linker.link request = .ok pair)
    (hcovers : ∀ d, request.DeclaresUniform d → request.Covers d) :
    linker.LeavesNothing request pair := by
  obtain ⟨-, vs, hvs, fs, hfs, a, ha, rfl⟩ := link_eq_ok_iff.1 h
  obtain ⟨dsv, hdsv, hvertex⟩ := utf8_inject_ofSource hvs
  obtain ⟨dsf, hdsf, hfragment⟩ := utf8_inject_ofSource hfs
  obtain ⟨us, hus, hmesh⟩ := uniforms_and_mesh_of_assign ha
  rw [unprovided_eq_nil hcovers hvs hfs hus] at hmesh
  -- without uniforms the group is made of nothing
  have hmesh : a.mesh = ⟨linker.options.groups.mesh, none,
      .empty linker.options.groups.meshGroup⟩ := (Except.ok.inj hmesh).symm
  have hcode : a.mesh.code = "" := by
    rw [hmesh]
    rfl
  constructor
  case layout => exact congrArg (·.layout) hmesh
  case bindings => exact congrArg (·.bindings) hmesh
  case code => exact hcode
  case vertex =>
    refine ⟨dsv, hdsv, (hvertex _).trans ?_⟩
    rw [vertexBlock, Block.ofSections_eq, hcode, Block.inOrder_concat_empty]
    rfl
  case fragment =>
    refine ⟨dsf, hdsf, (hfragment _).trans ?_⟩
    rw [fragmentBlock, Block.ofSections_eq, hcode, Block.inOrder_concat_empty]
    rfl

/-- Prepared scopes answer exactly for their lines, and a linked pair of which each uniform has a
line of its name and kind in some of them leaves nothing to the mesh. -/
theorem prepared_scopes (linker : Linker) :
    (∀ number lines g, linker.outerGroup number lines = .ok g → g.scope.AnswersFor lines) ∧
    ∀ request pair, linker.link request = .ok pair →
      (∀ d, request.DeclaresUniform d → request.Covers d) → linker.LeavesNothing request pair :=
  ⟨fun _ _ _ h => answersFor_of_outerGroup h,
    fun _ _ h hcovers => leavesNothing_of_covers h hcovers⟩

/-- A pair of which all uniforms are to be found in a scope. -/
def coveredRequest : LinkRequest where
  vertex := "uniform mat4 view;\nvoid main() {}\n"
  fragment := "uniform highp sampler2D sky;\nout vec4 color;\n"
  semantics := ∅
  formats := fun _ => none
  scopes := []

/-- The lines of the scope declare both names under other types, and one more. -/
theorem prepared_scopes_coveredRequest :
    ∃ g pair, outerGroup ⟨.standard, .standard⟩ 0 ["mat3 view", "samplerCube sky", "float time"] =
        .ok g ∧
      g.scope.AnswersFor ["mat3 view", "samplerCube sky", "float time"] ∧
      link ⟨.standard, .standard⟩ { coveredRequest with scopes := [g.scope] } = .ok pair ∧
      LeavesNothing ⟨.standard, .standard⟩ { coveredRequest with scopes := [g.scope] } pair := by
  have hlinked : (do
      let g ← outerGroup ⟨.standard, .standard⟩ 0 ["mat3 view", "samplerCube sky", "float time"]
      let pair ← link ⟨.standard, .standard⟩ { coveredRequest with scopes := [g.scope] }
      return pair.assignment.mesh.code : Except LinkError String) = .ok "" := by
    decide +kernel
  obtain ⟨g, hg, hlinked⟩ := Outcome.bind_eq_ok_iff.1 hlinked
  obtain ⟨pair, hpair, -⟩ := Outcome.bind_eq_ok_iff.1 hlinked
  obtain ⟨hanswers, hleaves⟩ := prepared_scopes ⟨.standard, .standard⟩
  refine ⟨g, pair, hg, hanswers 0 _ g hg, hpair, hleaves _ pair hpair ?_⟩
  rintro d ⟨vs, fs, hvs, hfs, text, htext, hd⟩
  refine ⟨⟨.standard, .standard⟩, 0, _, g, hg, List.mem_singleton_self _, ?_⟩
  have hpayloads : (do
      let vs ← Declaration.ofSource .vertex coveredRequest.vertex
      let fs ← Declaration.ofSource .fragment coveredRequest.fragment
      return Declaration.payloads vs .uniform ++ Declaration.payloads fs .uniform :
        Except LinkError (List String)) = .ok ["mat4 view", "highp sampler2D sky"] := by
    decide +kernel
  obtain ⟨_, hvs', hpayloads⟩ := Outcome.bind_eq_ok_iff.1 hpayloads
  obtain ⟨_, hfs', hpayloads⟩ := Outcome.bind_eq_ok_iff.1 hpayloads
  obtain rfl := Except.ok.inj (hvs.symm.trans hvs')
  obtain rfl := Except.ok.inj (hfs.symm.trans hfs')
  rw [Except.ok.inj hpayloads, List.mem_cons, List.mem_singleton] at htext
  rcases htext with rfl | rfl
  · have hview : Declarator.parse "mat4 view" = .ok ⟨none, "mat4", "view", 0⟩ := by decide +kernel
    obtain rfl := Except.ok.inj (hview.symm.trans hd)
    exact ⟨"mat3 view", by simp, ⟨none, "mat3", "view", 0⟩, by decide +kernel, rfl, by decide⟩
  · have hsky : Declarator.parse "highp sampler2D sky" =
        .ok ⟨some .high, "sampler2D", "sky", 0⟩ := by decide +kernel
    obtain rfl := Except.ok.inj (hsky.symm.trans hd)
    exact ⟨"samplerCube sky", by simp, ⟨none, "samplerCube", "sky", 0⟩, by decide +kernel, rfl,
      by decide⟩

end Linker

end ShaderInterface
