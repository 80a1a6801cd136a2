import ShaderInterface.Proofs.LinkReads
import ShaderInterface.Proofs.Merging
import ShaderInterface.Proofs.Places
import ShaderInterface.Proofs.Placement
import ShaderInterface.Proofs.Resources

/-!
# Which pairs can be linked

`Linker.Linkable` lists the conditions on the declarations of a pair of shaders under which it can
be linked, and `Linker.exists_link_eq_ok_iff` says that a link succeeds exactly under these, for
sources that are not too large and scopes that leave a bind group for the mesh. A link looks at the
declarations one after the other and stops at the first fault, but the conditions do not depend on
the order of the declarations.
-/

namespace ShaderInterface

open Source (Declaration Stripped maxSourceBytes)
open Variable (Declares)

/-- The scope provides what is declared. -/
def Scope.Provides (scope : Scope) (d : Declarator) : Prop :=
  if d.isTexture then scope.hasTexture d.name else scope.hasUniform d.name

/-- A uniform is provided if some scope provides what it declares. -/
theorem Scope.provider?_eq_none_iff {scopes : List Scope} {u : Uniform} :
    provider? scopes u = none ↔ ∀ scope ∈ scopes, ¬ scope.Provides u.toDeclarator := by
  rw [provider?, List.findIdx?_eq_none_iff]
  refine forall₂_congr fun scope _ => ?_
  rw [provides, Provides, Bool.eq_false_iff]

namespace Linker

/-- The declarations of two stages, given by their payloads, can be linked. -/
structure Linkable (linker : Linker) (request : LinkRequest) (vertex fragment : Payloads) :
    Prop where
  /-- The vertex stage has no outputs. -/
  outputs : vertex .output = []
  /-- The fragment stage has no attributes. -/
  attributes : fragment .attrib = []
  /-- Each variable is declared by a type and a name behind qualifiers. -/
  declares : ∀ text ∈ vertex .attrib ++ vertex .varying ++ fragment .varying ++ fragment .output,
    ∃ typeName name, Declares text typeName name
  /-- The semantic of an attribute has a location. -/
  located : ∀ text ∈ vertex .attrib, ∀ s, Attribute.Mapped request.semantics text s →
    ∃ l, linker.tables.location s = .ok l
  /-- Attributes do not share locations. -/
  locations : (vertex .attrib).Pairwise (Attribute.Apart request.semantics linker.tables.location)
  /-- The varyings of the vertex stage have different names. -/
  names : (vertex .varying).Pairwise Varyings.Apart
  /-- The vertex stage produces each varying of the fragment stage. -/
  produced : ∀ text ∈ fragment .varying, ∀ typeName name, Declares text typeName name →
    ∃ text' ∈ vertex .varying, ∃ typeName', Declares text' typeName' name
  /-- Each uniform is a declarator. -/
  uniforms : ∀ text ∈ vertex .uniform ++ fragment .uniform, ∃ d, Declarator.parse text = .ok d
  /-- Uniforms of one name are equal when their blanks are collapsed. -/
  consistent : ∀ text ∈ vertex .uniform ++ fragment .uniform,
    ∀ text' ∈ vertex .uniform ++ fragment .uniform, ∀ d d', Declarator.parse text = .ok d →
      Declarator.parse text' = .ok d' → d.name = d'.name → Text.collapse text = Text.collapse text'
  /-- The tables support each uniform that no scope provides. -/
  supported : ∀ text ∈ vertex .uniform ++ fragment .uniform, ∀ d, Declarator.parse text = .ok d →
    (∀ scope ∈ request.scopes, ¬ scope.Provides d) → linker.tables.Supports d

variable {linker : Linker} {request : LinkRequest} {vertex fragment : Payloads}

/-- No declaration of a keyword is refused if there is none. -/
theorem refuse_eq_ok_iff {stage : Stage} {keyword : Source.Keyword} {payloads : Payloads} :
    refuse stage keyword payloads = .ok () ↔ payloads keyword = [] := by
  rw [refuse]
  split
  · next h => simp [h]
  · next h => simp [h]

/-- The lines that declare the uniforms of two stages, those of the vertex stage first. -/
def uniformLines (vertex fragment : Payloads) : List (Stage × String) :=
  (vertex .uniform).map (Stage.vertex, ·) ++ (fragment .uniform).map (Stage.fragment, ·)

/-- The uniforms that no scope provides. -/
def unprovided (scopes : List Scope) (us : List Uniform) : List Uniform :=
  us.filter fun u => (Scope.provider? scopes u).isNone

/-- The texts of the lines are the payloads of both stages. -/
theorem map_snd_uniformLines (vertex fragment : Payloads) :
    (uniformLines vertex fragment).map (·.2) = vertex .uniform ++ fragment .uniform := by
  simp [uniformLines, Function.comp_def]

/-- The declared uniforms are merged, and those that no scope provides get places, if their
declarations are consistent and the tables support them. -/
theorem exists_uniforms_and_group_iff {scopes : List Scope} {sampling : HighpSampling}
    {group : Nat} {name : String} :
    (∃ us, Linker.uniforms vertex fragment = .ok us ∧
      ∃ g, ResourceGroup.ofUniforms linker.tables sampling group name
        (unprovided scopes us) = .ok g) ↔
      (∀ text ∈ vertex .uniform ++ fragment .uniform, ∃ d, Declarator.parse text = .ok d) ∧
      (∀ text ∈ vertex .uniform ++ fragment .uniform,
        ∀ text' ∈ vertex .uniform ++ fragment .uniform, ∀ d d', Declarator.parse text = .ok d →
          Declarator.parse text' = .ok d' → d.name = d'.name →
            Text.collapse text = Text.collapse text') ∧
      ∀ text ∈ vertex .uniform ++ fragment .uniform, ∀ d, Declarator.parse text = .ok d →
        (∀ scope ∈ scopes, ¬ scope.Provides d) → linker.tables.Supports d := by
  have hmerge := Uniform.exists_merge_eq_ok_iff (uniformLines vertex fragment)
  rw [map_snd_uniformLines] at hmerge
  rw [← and_assoc, ← hmerge]
  -- what the merged uniforms declare is what the texts declare
  have hsupported : ∀ us, Linker.uniforms vertex fragment = .ok us →
      ((∀ u ∈ unprovided scopes us, linker.tables.Supports u.toDeclarator) ↔
      ∀ text ∈ vertex .uniform ++ fragment .uniform, ∀ d, Declarator.parse text = .ok d →
        (∀ scope ∈ scopes, ¬ scope.Provides d) → linker.tables.Supports d) := by
    intro us hus
    have hdeclared : ∀ d, (∃ u ∈ us, u.toDeclarator = d) ↔
        ∃ text ∈ vertex .uniform ++ fragment .uniform, Declarator.parse text = .ok d := by
      intro d
      rw [← map_snd_uniformLines]
      exact Uniform.exists_mem_merge_iff hus
    simp only [unprovided, List.forall_mem_filter, Option.isNone_iff_eq_none,
      Scope.provider?_eq_none_iff]
    constructor
    · intro h text htext d hd hfree
      obtain ⟨u, hu, rfl⟩ := (hdeclared d).2 ⟨text, htext, hd⟩
      exact h u hu hfree
    · intro h u hu hfree
      obtain ⟨text, htext, hd⟩ := (hdeclared u.toDeclarator).1 ⟨u, hu, rfl⟩
      exact h text htext u.toDeclarator hd hfree
  simp only [ResourceGroup.exists_ofUniforms_eq_ok_iff]
  constructor
  · rintro ⟨us, hus, h⟩
    exact ⟨⟨us, hus⟩, (hsupported us hus).1 h⟩
  · rintro ⟨⟨us, hus⟩, h⟩
    exact ⟨us, hus, (hsupported us hus).2 h⟩

/-- Places are given if each step gives its own. -/
theorem exists_assign_eq_ok_iff_steps {semantics : SemanticMap} {formats : FormatMap}
    {scopes : List Scope} :
    (∃ a, linker.assign semantics formats scopes vertex fragment = .ok a) ↔
      refuse .vertex .output vertex = .ok () ∧ refuse .fragment .attrib fragment = .ok () ∧
      (∃ as, Attribute.assign semantics formats linker.tables.location (vertex .attrib) = .ok as) ∧
      (∃ vs, Varyings.pair (vertex .varying) (fragment .varying) = .ok vs) ∧
      (∃ os, Output.assign (fragment .output) = .ok os) ∧
      ∃ us, Linker.uniforms vertex fragment = .ok us ∧
        ∃ g, ResourceGroup.ofUniforms linker.tables linker.options.sampling
          linker.options.groups.meshGroup linker.options.groups.mesh (unprovided scopes us) =
            .ok g := by
  simp only [assign, Outcome.bind_eq_ok_iff]
  constructor
  · rintro ⟨-, ⟨⟩, hout, ⟨⟩, hattrib, as, has, vs, hvs, os, hos, us, hus, g, hg, -⟩
    exact ⟨hout, hattrib, ⟨as, has⟩, ⟨vs, hvs⟩, ⟨os, hos⟩, us, hus, g, hg⟩
  · rintro ⟨hout, hattrib, ⟨as, has⟩, ⟨vs, hvs⟩, ⟨os, hos⟩, us, hus, g, hg⟩
    exact ⟨_, (), hout, (), hattrib, as, has, vs, hvs, os, hos, us, hus, g, hg, rfl⟩

/-- The declarations of two stages are given places if they can be linked. -/
theorem exists_assign_eq_ok_iff :
    (∃ a, linker.assign request.semantics request.formats request.scopes vertex fragment = .ok a) ↔
      linker.Linkable request vertex fragment := by
  rw [exists_assign_eq_ok_iff_steps, refuse_eq_ok_iff, refuse_eq_ok_iff,
    Attribute.exists_assign_eq_ok_iff, Varyings.exists_pair_eq_ok_iff,
    Output.exists_assign_eq_ok_iff, exists_uniforms_and_group_iff]
  constructor
  · rintro ⟨hout, hattrib, ⟨hattributes, hlocated, hlocations⟩, ⟨hvertex, hnames, hfragment⟩,
      houtputs, huniforms, hconsistent, hsupported⟩
    refine ⟨hout, hattrib, ?_, hlocated, hlocations, hnames, ?_, huniforms, hconsistent,
      hsupported⟩
    · simp only [List.forall_mem_append]
      refine ⟨⟨⟨hattributes, hvertex⟩, fun text htext => ?_⟩, houtputs⟩
      obtain ⟨typeName, name, hdeclares, -⟩ := hfragment text htext
      exact ⟨typeName, name, hdeclares⟩
    · intro text htext typeName name hdeclares
      obtain ⟨typeName', name', hdeclares', hproduced⟩ := hfragment text htext
      rwa [(hdeclares.unique hdeclares').2]
  · intro h
    have hdeclares := h.declares
    simp only [List.forall_mem_append] at hdeclares
    obtain ⟨⟨⟨hattributes, hvertex⟩, hfragment⟩, houtputs⟩ := hdeclares
    refine ⟨h.outputs, h.attributes, ⟨hattributes, h.located, h.locations⟩,
      ⟨hvertex, h.names, fun text htext => ?_⟩, houtputs, h.uniforms, h.consistent, h.supported⟩
    obtain ⟨typeName, name, hdeclares⟩ := hfragment text htext
    exact ⟨typeName, name, hdeclares, h.produced text htext typeName name hdeclares⟩

/-- The order of the declarations does not matter. -/
theorem Linkable.of_perm {vertex' fragment' : Payloads}
    (hvertex : ∀ keyword, (vertex keyword).Perm (vertex' keyword))
    (hfragment : ∀ keyword, (fragment keyword).Perm (fragment' keyword))
    (h : linker.Linkable request vertex fragment) : linker.Linkable request vertex' fragment' := by
  have huniforms := (hvertex .uniform).append (hfragment .uniform)
  have hvariables := (((hvertex .attrib).append (hvertex .varying)).append
    (hfragment .varying)).append (hfragment .output)
  constructor
  case outputs => exact List.perm_nil.1 (h.outputs ▸ (hvertex .output).symm)
  case attributes => exact List.perm_nil.1 (h.attributes ▸ (hfragment .attrib).symm)
  case declares => exact fun text htext => h.declares text (hvariables.mem_iff.2 htext)
  case located => exact fun text htext => h.located text ((hvertex .attrib).mem_iff.2 htext)
  case locations =>
    exact (hvertex .attrib).pairwise h.locations fun hapart s s' hs hs' =>
      (hapart s' s hs' hs).symm
  case names =>
    exact (hvertex .varying).pairwise h.names fun hapart t n t' n' htext htext' =>
      (hapart t' n' t n htext' htext).symm
  case produced =>
    intro text htext typeName name hdeclares
    obtain ⟨text', htext', hproduced⟩ :=
      h.produced text ((hfragment .varying).mem_iff.2 htext) typeName name hdeclares
    exact ⟨text', (hvertex .varying).mem_iff.1 htext', hproduced⟩
  case uniforms => exact fun text htext => h.uniforms text (huniforms.mem_iff.2 htext)
  case consistent =>
    exact fun text htext text' htext' =>
      h.consistent text (huniforms.mem_iff.2 htext) text' (huniforms.mem_iff.2 htext')
  case supported => exact fun text htext => h.supported text (huniforms.mem_iff.2 htext)

/-- A pair is linked exactly if the scopes leave a bind group for the mesh, no source is too large,
each declaration has an end, and the declarations can be linked. For this the order of the
declarations does not matter. -/
theorem exists_link_eq_ok_iff (linker : Linker) (request : LinkRequest) :
    ((∃ pair, linker.link request = .ok pair) ↔
      request.scopes.length < linker.options.groups.count ∧
      request.vertex.utf8ByteSize ≤ maxSourceBytes ∧
      request.fragment.utf8ByteSize ≤ maxSourceBytes ∧
      ∃ vs fs, Declaration.ofSource .vertex request.vertex = .ok vs ∧
        Declaration.ofSource .fragment request.fragment = .ok fs ∧
        linker.Linkable request (Declaration.payloads vs) (Declaration.payloads fs)) ∧
    ∀ vertex vertex' fragment fragment' : Payloads,
      (∀ keyword, (vertex keyword).Perm (vertex' keyword)) →
      (∀ keyword, (fragment keyword).Perm (fragment' keyword)) →
      (linker.Linkable request vertex fragment ↔ linker.Linkable request vertex' fragment') := by
  refine ⟨?_, fun vertex vertex' fragment fragment' hvertex hfragment => ?_⟩
  · have hvertex := @Stripped.exists_ofSource_eq_ok_iff .vertex request.vertex
    have hfragment := @Stripped.exists_ofSource_eq_ok_iff .fragment request.fragment
    constructor
    · rintro ⟨pair, hlink⟩
      obtain ⟨hscopes, vs, hvs, fs, hfs, a, ha, -⟩ := link_eq_ok_iff.1 hlink
      obtain ⟨hvsize, dsv, hdsv, hvpayloads⟩ := hvertex.1 ⟨vs, hvs, rfl⟩
      obtain ⟨hfsize, dsf, hdsf, hfpayloads⟩ := hfragment.1 ⟨fs, hfs, rfl⟩
      refine ⟨hscopes, hvsize, hfsize, dsv, dsf, hdsv, hdsf, ?_⟩
      rw [hvpayloads, hfpayloads]
      exact exists_assign_eq_ok_iff.1 ⟨a, ha⟩
    · rintro ⟨hscopes, hvsize, hfsize, dsv, dsf, hdsv, hdsf, hlinkable⟩
      obtain ⟨vs, hvs, hvpayloads⟩ := hvertex.2 ⟨hvsize, dsv, hdsv, rfl⟩
      obtain ⟨fs, hfs, hfpayloads⟩ := hfragment.2 ⟨hfsize, dsf, hdsf, rfl⟩
      rw [← hvpayloads, ← hfpayloads] at hlinkable
      obtain ⟨a, ha⟩ := exists_assign_eq_ok_iff.2 hlinkable
      exact ⟨_, link_eq_ok_iff.2 ⟨hscopes, vs, hvs, fs, hfs, a, ha, rfl⟩⟩
  · exact ⟨.of_perm hvertex hfragment,
      .of_perm (fun keyword => (hvertex keyword).symm) fun keyword => (hfragment keyword).symm⟩

end Linker

end ShaderInterface
