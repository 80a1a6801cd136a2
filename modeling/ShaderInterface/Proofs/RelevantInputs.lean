import ShaderInterface.Proofs.Acceptance

/-!
# What a link has to read

A link gives its map of attributes, its formats and its scopes no attention beyond what the sources
declare: requests that agree on the declared attributes and on whether the declared uniforms are
provided are linked alike (`Linker.link_eq_of_agreesOnDeclared`). Of the sources, the places of the
declarations depend on nothing but the payloads (`Linker.map_assignment_link_eq`), so no binding
moves when other text of a shader is edited. `Linker.link_reads_declared` says both.
-/

namespace ShaderInterface

open Source (Declaration Keyword Stripped maxSourceBytes)
open Variable (Declares)

/-! ## Agreement on what is declared -/

namespace LinkRequest

/-- The vertex source declares an attribute of the given name. -/
def DeclaresAttribute (request : LinkRequest) (name : String) : Prop :=
  ∃ ds, Declaration.ofSource .vertex request.vertex = .ok ds ∧
    ∃ text ∈ Declaration.payloads ds .attrib, ∃ typeName, Declares text typeName name

/-- Some scope of the request provides what is declared. -/
def IsProvided (request : LinkRequest) (d : Declarator) : Prop :=
  ∃ scope ∈ request.scopes, scope.Provides d

/-- Two requests have the same sources and the same code of scopes, and agree on the declared
attributes and uniforms. Which scope provides a uniform may differ. -/
structure AgreesOnDeclared (request other : LinkRequest) : Prop where
  vertex : request.vertex = other.vertex
  fragment : request.fragment = other.fragment
  semantics : ∀ name, request.DeclaresAttribute name →
    request.semantics[name]? = other.semantics[name]?
  formats : ∀ name, request.DeclaresAttribute name → ∀ s, request.semantics[name]? = some s →
    request.formats s = other.formats s
  scopeCodes : request.scopes.map (·.code) = other.scopes.map (·.code)
  provided : ∀ us, Linker.uniformsOf request.vertex request.fragment = .ok us → ∀ u ∈ us,
    (request.IsProvided u.toDeclarator ↔ other.IsProvided u.toDeclarator)

/-- A uniform has no provider exactly if it is not provided. -/
theorem isNone_provider?_iff {request : LinkRequest} {u : Uniform} :
    (Scope.provider? request.scopes u).isNone ↔ ¬ request.IsProvided u.toDeclarator := by
  rw [Option.isNone_iff_eq_none, Scope.provider?_eq_none_iff, IsProvided, not_exists]
  simp only [not_and]

/-- What an attribute line of the stripped vertex source declares is a declared attribute. -/
theorem declaresAttribute_of_parse {request : LinkRequest} {vs : Stripped}
    (hvs : Stripped.ofSource .vertex request.vertex = .ok vs) {text : String}
    (htext : text ∈ vs.payloads .attrib) {v : Variable}
    (hv : Variable.parse .vertex .attrib text = .ok v) : request.DeclaresAttribute v.name := by
  obtain ⟨-, ds, hds, hpayloads⟩ := Stripped.exists_ofSource_eq_ok_iff.1 ⟨vs, hvs, rfl⟩
  rw [← hpayloads] at htext
  exact ⟨ds, hds, text, htext, v.typeName, (Variable.parse_eq_ok_iff.1 hv).1⟩

end LinkRequest

/-- Two sources of a stage, neither of them too large, declare the same. -/
def Source.DeclareAlike (stage : Stage) (source source' : String) : Prop :=
  source.utf8ByteSize ≤ maxSourceBytes ∧ source'.utf8ByteSize ≤ maxSourceBytes ∧
    ∃ ds ds', Declaration.ofSource stage source = .ok ds ∧
      Declaration.ofSource stage source' = .ok ds' ∧
      ∀ keyword, Declaration.payloads ds keyword = Declaration.payloads ds' keyword

/-- Sources that declare the same have the same payloads when they are stripped. -/
theorem Source.DeclareAlike.exists_ofSource {stage : Stage} {source source' : String}
    (h : DeclareAlike stage source source') :
    ∃ stripped stripped', Stripped.ofSource stage source = .ok stripped ∧
      Stripped.ofSource stage source' = .ok stripped' ∧
      stripped.payloads = stripped'.payloads := by
  obtain ⟨hsize, hsize', ds, ds', hds, hds', hpayloads⟩ := h
  obtain ⟨stripped, hs, heq⟩ := Stripped.exists_ofSource_eq_ok_iff.2 ⟨hsize, ds, hds, rfl⟩
  obtain ⟨stripped', hs', heq'⟩ := Stripped.exists_ofSource_eq_ok_iff.2 ⟨hsize', ds', hds', rfl⟩
  exact ⟨stripped, stripped', hs, hs', heq.trans ((funext hpayloads).trans heq'.symm)⟩

namespace Linker

/-! ## Two links -/

variable {linker : Linker} {request other : LinkRequest}

/-- Requests that agree on what is declared are linked alike. -/
theorem link_eq_of_agreesOnDeclared (linker : Linker) (h : request.AgreesOnDeclared other) :
    linker.link request = linker.link other := by
  refine linker.link_congr h.vertex h.fragment (fun vs hvs location => ?_) h.scopeCodes ?_
  · have hdeclares : ∀ text ∈ vs.payloads .attrib, ∀ v,
        Variable.parse .vertex .attrib text = .ok v → request.DeclaresAttribute v.name :=
      fun text htext v hv => LinkRequest.declaresAttribute_of_parse hvs htext hv
    exact Attribute.assign_congr
      (fun text htext v hv => h.semantics v.name (hdeclares text htext v hv))
      (fun text htext v s hv => h.formats v.name (hdeclares text htext v hv) s) location
  · intro us hus u hu
    rw [Bool.eq_iff_iff, LinkRequest.isNone_provider?_iff, LinkRequest.isNone_provider?_iff]
    exact not_congr (h.provided us hus u hu)

/-- The places that a link gives to the declarations of two sources that can be stripped. -/
theorem map_assignment_link {vs fs : Stripped}
    (hvs : Stripped.ofSource .vertex request.vertex = .ok vs)
    (hfs : Stripped.ofSource .fragment request.fragment = .ok fs) :
    (linker.link request).map (·.assignment) =
      if request.scopes.length ≥ linker.options.groups.count then
        .error (.tooManyScopes request.scopes.length linker.options.groups.count)
      else
        linker.assign request.semantics request.formats request.scopes vs.payloads
          fs.payloads := by
  rw [link_eq, hvs, hfs]
  split
  · rfl
  · dsimp only [bind, Except.bind]
    cases linker.assign request.semantics request.formats request.scopes vs.payloads
      fs.payloads with
    | error cause => rfl
    | ok a => rfl

/-- Sources that declare the same are given the same places, or the same cause not to be. -/
theorem map_assignment_link_eq (linker : Linker) (request : LinkRequest) {vertex fragment : String}
    (hvertex : Source.DeclareAlike .vertex request.vertex vertex)
    (hfragment : Source.DeclareAlike .fragment request.fragment fragment) :
    (linker.link request).map (·.assignment) =
      (linker.link { request with vertex, fragment }).map (·.assignment) := by
  obtain ⟨vs, vs', hvs, hvs', hvpayloads⟩ := hvertex.exists_ofSource
  obtain ⟨fs, fs', hfs, hfs', hfpayloads⟩ := hfragment.exists_ofSource
  have hother := @map_assignment_link linker { request with vertex, fragment } vs' fs' hvs' hfs'
  rw [map_assignment_link hvs hfs, hvpayloads, hfpayloads]
  exact hother.symm

/-- A link reads nothing but what is relevant to the declarations of its sources, and the places
that it gives do not depend on the rest of the sources. -/
theorem link_reads_declared (linker : Linker) (request : LinkRequest) :
    (∀ other, request.AgreesOnDeclared other → linker.link request = linker.link other) ∧
    ∀ vertex fragment, Source.DeclareAlike .vertex request.vertex vertex →
      Source.DeclareAlike .fragment request.fragment fragment →
      (∃ cause, linker.link request = .error cause ∧
        linker.link { request with vertex, fragment } = .error cause) ∨
      ∃ pair pair', linker.link request = .ok pair ∧
        linker.link { request with vertex, fragment } = .ok pair' ∧
        pair.assignment = pair'.assignment := by
  refine ⟨fun other h => linker.link_eq_of_agreesOnDeclared h, ?_⟩
  intro vertex fragment hvertex hfragment
  exact Outcome.map_eq_map_iff.1 (linker.map_assignment_link_eq request hvertex hfragment)

/-- A pair with an attribute, a value and a texture from the first of two scopes, and a value that
none provides. -/
def lampRequest : LinkRequest where
  vertex := "attribute vec3 position;\nuniform mat4 view;\nuniform float time;\nvoid main() {}\n"
  fragment := "uniform sampler2D glow;\nout vec4 color;\nvoid main() {}\n"
  semantics := (∅ : SemanticMap).insert "position" .position
  formats := fun _ => none
  scopes := [⟨(· == "view"), (· == "glow"), "// frame\n"⟩,
    ⟨fun _ => false, fun _ => false, "// view\n"⟩]

/-- The pair with a map and formats that know of more than it declares, and with scopes that have
changed their parts. -/
def lampRequest' : LinkRequest :=
  { lampRequest with
    semantics := ((∅ : SemanticMap).insert "position" .position).insert "uv" (.texCoord 0)
    formats := fun s => if s = .position then none else some ⟨.float32, false⟩
    scopes := [⟨(· == "sky"), fun _ => false, "// frame\n"⟩,
      ⟨(· == "view"), (· == "glow"), "// view\n"⟩] }

/-- The pair declares one attribute. -/
theorem name_eq_of_declaresAttribute_lampRequest {name : String}
    (h : lampRequest.DeclaresAttribute name) : name = "position" := by
  obtain ⟨ds, hds, text, htext, typeName, hdeclares⟩ := h
  have hpayloads : (Declaration.ofSource .vertex lampRequest.vertex).map
      (fun ds => Declaration.payloads ds .attrib) = .ok ["vec3 position"] := by
    decide +kernel
  rw [hds] at hpayloads
  have hlines : Declaration.payloads ds .attrib = ["vec3 position"] := Except.ok.inj hpayloads
  rw [hlines, List.mem_singleton] at htext
  subst htext
  have hposition : Declares "vec3 position" "vec3" "position" := by
    unfold Declares
    decide +kernel
  exact (hdeclares.unique hposition).2

/-- The two agree: "position" is the one attribute, and the same uniforms are provided. -/
theorem agreesOnDeclared_lampRequest : lampRequest.AgreesOnDeclared lampRequest' where
  vertex := rfl
  fragment := rfl
  semantics := by
    intro name hname
    obtain rfl := name_eq_of_declaresAttribute_lampRequest hname
    decide +kernel
  formats := by
    intro name hname s hs
    obtain rfl := name_eq_of_declaresAttribute_lampRequest hname
    have hposition : lampRequest.semantics["position"]? = some .position := by decide +kernel
    obtain rfl : .position = s := Option.some.inj (hposition.symm.trans hs)
    decide +kernel
  scopeCodes := rfl
  provided := by
    intro us hus u hu
    have hdeclared : (uniformsOf lampRequest.vertex lampRequest.fragment).map
        (fun us => us.map (·.toDeclarator)) =
          .ok [⟨none, "mat4", "view", 0⟩, ⟨none, "float", "time", 0⟩,
            ⟨none, "sampler2D", "glow", 0⟩] := by
      decide +kernel
    obtain ⟨_, hus', hdeclared⟩ := Outcome.map_eq_ok_iff.1 hdeclared
    obtain rfl := Except.ok.inj (hus.symm.trans hus')
    have hmem := hdeclared ▸ List.mem_map_of_mem hu
    have hprovided : ∀ d ∈ ([⟨none, "mat4", "view", 0⟩, ⟨none, "float", "time", 0⟩,
        ⟨none, "sampler2D", "glow", 0⟩] : List Declarator),
        ((∃ scope ∈ lampRequest.scopes, scope.Provides d) ↔
          ∃ scope ∈ lampRequest'.scopes, scope.Provides d) := by
      unfold Scope.Provides
      decide +kernel
    exact hprovided _ hmem

/-- Another body of the vertex source, with its declarations in other places. -/
def otherLampVertex : String :=
  "uniform mat4 view; attribute vec3 position;\n// the hour\nuniform float time;\nint f() {}\n"

/-- Both the map and the vertex source of the pair can be changed. -/
theorem link_reads_declared_lampRequest :
    ∃ pair pair', link ⟨.standard, .standard⟩ lampRequest = .ok pair ∧
      pair.assignment.attributes.map (·.name) = ["position"] ∧
      pair.assignment.mesh.fields.map (·.name) = ["time"] ∧
      lampRequest.AgreesOnDeclared lampRequest' ∧
      link ⟨.standard, .standard⟩ lampRequest' = .ok pair ∧
      Source.DeclareAlike .vertex lampRequest.vertex otherLampVertex ∧
      Source.DeclareAlike .fragment lampRequest.fragment lampRequest.fragment ∧
      link ⟨.standard, .standard⟩ { lampRequest with vertex := otherLampVertex } = .ok pair' ∧
      pair'.assignment = pair.assignment := by
  have hnames : (link ⟨.standard, .standard⟩ lampRequest).map (fun pair =>
      (pair.assignment.attributes.map (·.name), pair.assignment.mesh.fields.map (·.name))) =
        .ok (["position"], ["time"]) := by
    decide +kernel
  obtain ⟨pair, hlink, hnames⟩ := Outcome.map_eq_ok_iff.1 hnames
  obtain ⟨hattributes, hfields⟩ := Prod.mk.inj hnames
  obtain ⟨hagree, hsources⟩ := link_reads_declared ⟨.standard, .standard⟩ lampRequest
  have hvertex : Source.DeclareAlike .vertex lampRequest.vertex otherLampVertex := by
    refine ⟨by decide +kernel, by decide +kernel, ?_⟩
    have hpayloads : ∀ source ∈ [lampRequest.vertex, otherLampVertex],
        (Declaration.ofSource .vertex source).map (fun ds =>
          [Keyword.attrib, .varying, .output, .uniform].map (Declaration.payloads ds)) =
            .ok [["vec3 position"], [], [], ["mat4 view", "float time"]] := by
      decide +kernel
    obtain ⟨ds, hds, heq⟩ := Outcome.map_eq_ok_iff.1 (hpayloads _ List.mem_cons_self)
    obtain ⟨ds', hds', heq'⟩ := Outcome.map_eq_ok_iff.1
      (hpayloads _ (List.mem_cons_of_mem _ List.mem_cons_self))
    refine ⟨ds, ds', hds, hds', fun keyword => ?_⟩
    refine List.map_inj_left.1 (heq.trans heq'.symm) keyword ?_
    cases keyword <;> decide
  have hfragment : Source.DeclareAlike .fragment lampRequest.fragment lampRequest.fragment := by
    obtain ⟨-, -, -, fs, hfs, -⟩ := link_eq_ok_iff.1 hlink
    obtain ⟨hsize, ds, hds, -⟩ := Stripped.exists_ofSource_eq_ok_iff.1 ⟨fs, hfs, rfl⟩
    exact ⟨hsize, hsize, ds, ds, hds, hds, fun _ => rfl⟩
  have hsame := hagree _ agreesOnDeclared_lampRequest
  obtain ⟨cause, herror, -⟩ | ⟨_, pair', hpair, hlink', heq⟩ := hsources _ _ hvertex hfragment
  · rw [hlink] at herror
    contradiction
  · obtain rfl := Except.ok.inj (hlink.symm.trans hpair)
    exact ⟨_, pair', hlink, hattributes, hfields, agreesOnDeclared_lampRequest,
      hsame.symm.trans hlink, hvertex, hfragment, hlink', heq.symm⟩

end Linker

end ShaderInterface
