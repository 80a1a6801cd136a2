import ShaderInterface.Proofs.Acceptance

/-!
# Where the uniforms of a pair go

Each uniform that a pair of shaders declares has one home. A uniform that a scope provides is left
to the scope; each other one becomes a field of the mesh group's buffer or a texture of the mesh
group, in the order of the declarations, and is found there by its name. `ResourceGroup.Houses` says
so of a group, and `Linker.oneHome_of_link` of the mesh group of a linked pair.
-/

namespace ShaderInterface

open Source (Declaration Stripped)

/-! ## Finding by name -/

/-- Where no two elements have one name, each is found by its name. -/
theorem find?_name_eq_some_iff {α : Type} {name : α → String} {xs : List α}
    (h : (xs.map name).Nodup) {n : String} {x : α} :
    xs.find? (name · == n) = some x ↔ x ∈ xs ∧ name x = n := by
  constructor
  · intro hfind
    exact ⟨List.mem_of_find?_eq_some hfind, by simpa using List.find?_some hfind⟩
  · rintro ⟨hx, rfl⟩
    obtain ⟨y, hy⟩ : ∃ y, xs.find? (name · == name x) = some y := by
      rw [← Option.isSome_iff_exists, List.find?_isSome]
      exact ⟨x, hx, beq_self_eq_true _⟩
    have hname : name y = name x := by simpa using List.find?_some hy
    rw [hy, List.inj_on_of_nodup_map h (List.mem_of_find?_eq_some hy) hx hname]

/-- What is found by name among elements that look like others is found among the others. -/
theorem map_find?_name_eq_some_iff {α β γ : Type} {name : α → String} {view : α → γ}
    {view' : β → γ} (nameOf : γ → String) (hname : ∀ x, nameOf (view x) = name x) {xs : List α}
    {ys : List β} (h : (xs.map name).Nodup) (heq : xs.map view = ys.map view') {n : String}
    {c : γ} :
    (xs.find? (name · == n)).map view = some c ↔
      ∃ y ∈ ys, nameOf (view' y) = n ∧ view' y = c := by
  have hview : (∃ x ∈ xs, view x = c) ↔ ∃ y ∈ ys, view' y = c := by
    rw [← List.mem_map, heq, List.mem_map]
  simp only [Option.map_eq_some_iff, find?_name_eq_some_iff h]
  constructor
  · rintro ⟨x, ⟨hx, rfl⟩, rfl⟩
    obtain ⟨y, hy, hxy⟩ := hview.1 ⟨x, hx, rfl⟩
    exact ⟨y, hy, by rw [hxy, hname], hxy⟩
  · rintro ⟨y, hy, rfl, rfl⟩
    obtain ⟨x, hx, hxy⟩ := hview.2 ⟨y, hy, rfl⟩
    exact ⟨x, ⟨hx, by rw [← hxy, hname]⟩, hxy⟩

/-! ## Groups -/

namespace ResourceGroup

/-- What a host sees of a texture. -/
abbrev TextureView := String × Option TextureDimension × SampleType

/-- A texture with its name, its dimension and what it yields when it is sampled. -/
def viewOf (t : Texture) : TextureView :=
  (t.name, some t.dimension, t.sampleType)

/-- The texture that a uniform declares. -/
def viewFor (tables : HostTables) (sampling : HighpSampling) (u : Uniform) : TextureView :=
  (u.name, tables.dimension? u.typeName, Texture.sampleTypeOf tables sampling u.toDeclarator)

/-- The group holds the given values and textures and nothing else. -/
structure Houses (g : ResourceGroup) (tables : HostTables) (sampling : HighpSampling)
    (values textures : List Uniform) : Prop where
  /-- The fields of the buffer are the values, in order. -/
  fields : g.fields.map (·.toDeclarator) = values.map (·.toDeclarator)
  /-- The textures are the texture uniforms, in order. -/
  bound : g.bindings.textures.map viewOf = textures.map (viewFor tables sampling)
  /-- There is no buffer without values. -/
  layout : g.layout = none ↔ values = []
  /-- The buffer is bound with its size. -/
  buffer : g.bindings.buffer.map (·.byteSize) = g.layout.map (·.totalBytes)
  /-- No two of the fields and textures have one name. -/
  nodup : (g.fields.map (·.name) ++ g.bindings.textures.map (·.name)).Nodup
  /-- A field is found by its name. -/
  field? : ∀ name d, (g.layout.bind (·.field? name)).map (·.toDeclarator) = some d ↔
    ∃ u ∈ values, u.name = name ∧ u.toDeclarator = d
  /-- A texture is found by its name. -/
  texture? : ∀ name view, (g.bindings.texture? name).map viewOf = some view ↔
    ∃ u ∈ textures, u.name = name ∧ viewFor tables sampling u = view

variable {tables : HostTables} {sampling : HighpSampling} {group : Nat} {name : String}

/-- Fields are found among the fields of the buffer, if there is one. -/
theorem bind_field?_eq (g : ResourceGroup) (name : String) :
    g.layout.bind (·.field? name) = g.fields.find? (·.name == name) := by
  rw [fields]
  cases g.layout <;> rfl

/-- Fields that are declared like uniforms have their names. -/
theorem map_name_of_map_toDeclarator {fields : List Field} {us : List Uniform}
    (h : fields.map (·.toDeclarator) = us.map (·.toDeclarator)) :
    fields.map (·.name) = us.map (·.name) := by
  have hnames := congrArg (List.map (·.name)) h
  rwa [List.map_map, List.map_map] at hnames

/-- Textures that are seen like uniforms have their names. -/
theorem map_name_of_map_viewOf {ts : List Texture} {us : List Uniform}
    (h : ts.map viewOf = us.map (viewFor tables sampling)) :
    ts.map (·.name) = us.map (·.name) := by
  have hnames := congrArg (List.map (·.1)) h
  rwa [List.map_map, List.map_map] at hnames

/-- A group that is made of values and textures of different names houses them. -/
theorem houses_of_ofParts {values textures : List Uniform} {g : ResourceGroup}
    (h : ofParts tables sampling group name values textures = .ok g)
    (hnodup : (values.map (·.name) ++ textures.map (·.name)).Nodup) :
    g.Houses tables sampling values textures := by
  obtain ⟨ms, hms, ts, hts, rfl⟩ := ofParts_eq_ok_iff.1 h
  have hdeclarators := BufferLayout.map_toDeclarator_of_mapM hms
  have hempty : ms = [] ↔ values = [] := by
    rw [← List.map_eq_nil_iff (f := (·.toDeclarator)), hdeclarators, List.map_eq_nil_iff]
  set g : ResourceGroup := ⟨name, BufferLayout.ofMembers? ms,
    ⟨group, (BufferLayout.ofMembers? ms).map (bufferBinding name), ts⟩⟩ with hg
  have hfields : g.fields.map (·.toDeclarator) = values.map (·.toDeclarator) := by
    rw [fields_ofMembers?, BufferLayout.map_toDeclarator_fieldsFrom, hdeclarators]
  have hbound : g.bindings.textures.map viewOf = textures.map (viewFor tables sampling) :=
    hts.map_eq
  have hnames : (g.fields.map (·.name) ++ g.bindings.textures.map (·.name)).Nodup := by
    rwa [map_name_of_map_toDeclarator hfields, map_name_of_map_viewOf hbound]
  constructor
  case fields => exact hfields
  case bound => exact hbound
  case layout => simp [hg, BufferLayout.ofMembers?, hempty]
  case buffer => simp [hg, Function.comp_def, bufferBinding]
  case nodup => exact hnames
  case field? =>
    intro n d
    rw [bind_field?_eq]
    exact map_find?_name_eq_some_iff Declarator.name (fun _ => rfl)
      (List.nodup_append.1 hnames).1 hfields
  case texture? =>
    intro n view
    exact map_find?_name_eq_some_iff Prod.fst (fun _ => rfl)
      (List.nodup_append.1 hnames).2.1 hbound

/-- A group that is made of uniforms of different names houses them. -/
theorem houses_of_ofUniforms {us : List Uniform} {g : ResourceGroup}
    (h : ofUniforms tables sampling group name us = .ok g) (hnodup : (us.map (·.name)).Nodup) :
    g.Houses tables sampling (us.filter (!·.isTexture)) (us.filter (·.isTexture)) := by
  refine houses_of_ofParts h (List.nodup_append.2 ⟨?_, ?_, ?_⟩)
  · exact hnodup.sublist (List.filter_sublist.map _)
  · exact hnodup.sublist (List.filter_sublist.map _)
  · -- a uniform is not both a value and a texture
    intro n hn n' hn' heq
    obtain ⟨u, hu, rfl⟩ := List.mem_map.1 hn
    obtain ⟨v, hv, rfl⟩ := List.mem_map.1 hn'
    obtain ⟨hu, hvalue⟩ := List.mem_filter.1 hu
    obtain ⟨hv, htexture⟩ := List.mem_filter.1 hv
    rw [List.inj_on_of_nodup_map hnodup hu hv heq, htexture] at hvalue
    contradiction

end ResourceGroup

/-! ## Linked pairs -/

namespace Linker

/-- The value uniforms that no scope provides as values. -/
def meshValues (scopes : List Scope) (us : List Uniform) : List Uniform :=
  us.filter fun u => !u.isTexture && scopes.all fun scope => !scope.hasUniform u.name

/-- The texture uniforms that no scope provides as textures. -/
def meshTextures (scopes : List Scope) (us : List Uniform) : List Uniform :=
  us.filter fun u => u.isTexture && scopes.all fun scope => !scope.hasTexture u.name

/-- A uniform is not provided if each scope says so of its kind. -/
theorem isNone_provider? (scopes : List Scope) (u : Uniform) :
    (Scope.provider? scopes u).isNone = scopes.all fun scope =>
      !(if u.isTexture then scope.hasTexture u.name else scope.hasUniform u.name) := by
  rw [Bool.eq_iff_iff, Option.isNone_iff_eq_none, Scope.provider?, List.findIdx?_eq_none_iff,
    List.all_eq_true]
  simp only [Scope.provides, Bool.not_eq_true']

/-- Of the uniforms that no scope provides, the values are those that no scope provides as values.
-/
theorem filter_value_unprovided (scopes : List Scope) (us : List Uniform) :
    (unprovided scopes us).filter (!·.isTexture) = meshValues scopes us := by
  rw [unprovided, meshValues, List.filter_filter]
  refine List.filter_congr fun u _ => ?_
  cases h : u.isTexture with
  | false => simp [isNone_provider?, h]
  | true => rfl

/-- Of the uniforms that no scope provides, the textures are those that no scope provides as
textures. -/
theorem filter_texture_unprovided (scopes : List Scope) (us : List Uniform) :
    (unprovided scopes us).filter (·.isTexture) = meshTextures scopes us := by
  rw [unprovided, meshTextures, List.filter_filter]
  refine List.filter_congr fun u _ => ?_
  cases h : u.isTexture with
  | false => rfl
  | true => simp [isNone_provider?, h]

/-- A uniform that a scope provides is none of the values and textures of the mesh. -/
theorem name_notMem_of_provides {scopes : List Scope} {us : List Uniform}
    (hnodup : (us.map (·.name)).Nodup) {u : Uniform} (hu : u ∈ us) {scope : Scope}
    (hscope : scope ∈ scopes) (hprovides : scope.Provides u.toDeclarator) :
    u.name ∉ (meshValues scopes us).map (·.name) ∧
      u.name ∉ (meshTextures scopes us).map (·.name) := by
  have hfree : ∀ v ∈ unprovided scopes us, v.name ≠ u.name := by
    intro v hv hname
    obtain ⟨hv, hnone⟩ := List.mem_filter.1 hv
    rw [List.inj_on_of_nodup_map hnodup hv hu hname, Option.isNone_iff_eq_none,
      Scope.provider?_eq_none_iff] at hnone
    exact hnone scope hscope hprovides
  rw [← filter_value_unprovided, ← filter_texture_unprovided]
  constructor
  · intro hmem
    obtain ⟨v, hv, hname⟩ := List.mem_map.1 hmem
    exact hfree v (List.mem_filter.1 hv).1 hname
  · intro hmem
    obtain ⟨v, hv, hname⟩ := List.mem_map.1 hmem
    exact hfree v (List.mem_filter.1 hv).1 hname

/-- Places depend on the uniforms only so far as no scope provides them. -/
theorem assign_eq_of_unprovided_eq (linker : Linker) (semantics : SemanticMap)
    (formats : FormatMap) {scopes : List Scope} {vertex fragment vertex' fragment' : Payloads}
    (hvertex : ∀ keyword ≠ .uniform, vertex keyword = vertex' keyword)
    (hfragment : ∀ keyword ≠ .uniform, fragment keyword = fragment' keyword) {us us' : List Uniform}
    (hus : Linker.uniforms vertex fragment = .ok us)
    (hus' : Linker.uniforms vertex' fragment' = .ok us')
    (h : unprovided scopes us = unprovided scopes us') :
    linker.assign semantics formats scopes vertex fragment =
      linker.assign semantics formats scopes vertex' fragment' := by
  rw [unprovided, unprovided] at h
  rw [assign, assign, refuse, refuse, refuse, refuse, hvertex .output (by decide),
    hfragment .attrib (by decide), hvertex .attrib (by decide), hvertex .varying (by decide),
    hfragment .varying (by decide), hfragment .output (by decide), hus, hus']
  dsimp only [bind, Except.bind]
  rw [h]

/-- What a successful link says of its uniforms: they are merged, and those that no scope provides
make up the mesh group. -/
theorem uniforms_and_mesh_of_assign {linker : Linker} {semantics : SemanticMap}
    {formats : FormatMap} {scopes : List Scope} {vertex fragment : Payloads} {a : Assignment}
    (h : linker.assign semantics formats scopes vertex fragment = .ok a) :
    ∃ us, Linker.uniforms vertex fragment = .ok us ∧
      ResourceGroup.ofUniforms linker.tables linker.options.sampling
        linker.options.groups.meshGroup linker.options.groups.mesh (unprovided scopes us) =
          .ok a.mesh := by
  simp only [assign, Outcome.bind_eq_ok_iff] at h
  obtain ⟨⟨⟩, -, ⟨⟩, -, as, -, vs, -, os, -, us, hus, g, hg, ha⟩ := h
  obtain rfl := Except.ok.inj ha
  exact ⟨us, hus, hg⟩

/-- What an outer group says of its lines: the group has a name, the lines are merged, and all of
their uniforms make up the group. -/
theorem uniforms_of_outerGroup {linker : Linker} {number : Nat} {lines : List String}
    {g : ResourceGroup} (h : linker.outerGroup number lines = .ok g) :
    ∃ name, linker.options.groups.outer[number]? = some name ∧
      ∃ us, Uniform.merge (lines.map (Stage.vertex, ·)) = .ok us ∧
        ResourceGroup.ofUniforms linker.tables linker.options.sampling number name us = .ok g := by
  unfold outerGroup at h
  cases hname : linker.options.groups.outer[number]? with
  | none =>
    rw [hname] at h
    contradiction
  | some name =>
    rw [hname] at h
    exact ⟨name, rfl, Outcome.bind_eq_ok_iff.1 h⟩

/-- The uniforms `us`, which are declared in the payloads of a linked pair, have one home each. -/
structure OneHome (linker : Linker) (request : LinkRequest) (pair : LinkedPair)
    (vertex fragment : Payloads) (us : List Uniform) : Prop where
  /-- No two uniforms have one name. -/
  nodup : (us.map (·.name)).Nodup
  /-- The mesh group holds the values and textures that no scope provides. -/
  houses : pair.assignment.mesh.Houses linker.tables linker.options.sampling
    (meshValues request.scopes us) (meshTextures request.scopes us)
  /-- The mesh group does not hold what a scope provides. -/
  provided : ∀ u ∈ us, ∀ scope ∈ request.scopes, scope.Provides u.toDeclarator →
    u.name ∉ pair.assignment.mesh.fields.map (·.name) ∧
      u.name ∉ pair.assignment.mesh.bindings.textures.map (·.name)
  /-- What a scope provides is not looked at: other sources that declare it with any other types and
  array sizes, or not at all, are linked with the same places. -/
  unchecked : ∀ vertexSource fragmentSource vs fs us',
    Stripped.ofSource .vertex vertexSource = .ok vs →
    Stripped.ofSource .fragment fragmentSource = .ok fs →
    (∀ keyword ≠ .uniform, vertex keyword = vs.payloads keyword ∧
      fragment keyword = fs.payloads keyword) →
    Linker.uniforms vs.payloads fs.payloads = .ok us' →
    unprovided request.scopes us = unprovided request.scopes us' →
    ∃ pair', linker.link { request with vertex := vertexSource, fragment := fragmentSource } =
      .ok pair' ∧ pair'.assignment = pair.assignment

/-- Each of the uniforms that a linked pair declares, those of the vertex stage first and without
those that repeat earlier ones, has one home. -/
theorem oneHome_of_link {linker : Linker} {request : LinkRequest} {pair : LinkedPair}
    (h : linker.link request = .ok pair) :
    ∃ vs fs all, Declaration.ofSource .vertex request.vertex = .ok vs ∧
      Declaration.ofSource .fragment request.fragment = .ok fs ∧
      Uniform.parseAll (uniformLines (Declaration.payloads vs) (Declaration.payloads fs)) =
        .ok all ∧
      linker.OneHome request pair (Declaration.payloads vs) (Declaration.payloads fs)
        (Uniform.distinct all) := by
  obtain ⟨hscopes, vs, hvs, fs, hfs, a, ha, rfl⟩ := link_eq_ok_iff.1 h
  obtain ⟨-, dsv, hdsv, hvertex⟩ := Stripped.exists_ofSource_eq_ok_iff.1 ⟨vs, hvs, rfl⟩
  obtain ⟨-, dsf, hdsf, hfragment⟩ := Stripped.exists_ofSource_eq_ok_iff.1 ⟨fs, hfs, rfl⟩
  rw [← hvertex, ← hfragment] at ha
  obtain ⟨us, hus, hmesh⟩ := uniforms_and_mesh_of_assign ha
  obtain ⟨all, hall, hconsistent, rfl⟩ := Uniform.merge_eq_ok_iff.1 hus
  have hnodup := (Uniform.collected_distinct (Uniform.isRead_of_parseAll hall) hconsistent).nodup
  have hhouses := ResourceGroup.houses_of_ofUniforms hmesh
    (hnodup.sublist (List.filter_sublist.map _))
  rw [filter_value_unprovided, filter_texture_unprovided] at hhouses
  refine ⟨dsv, dsf, all, hdsv, hdsf, hall, ?_⟩
  constructor
  case nodup => exact hnodup
  case houses => exact hhouses
  case provided =>
    intro u hu scope hscope hprovides
    show u.name ∉ a.mesh.fields.map _ ∧ u.name ∉ a.mesh.bindings.textures.map _
    rw [ResourceGroup.map_name_of_map_toDeclarator hhouses.fields,
      ResourceGroup.map_name_of_map_viewOf hhouses.bound]
    exact name_notMem_of_provides hnodup hu hscope hprovides
  case unchecked =>
    intro vertexSource fragmentSource vs' fs' us' hvs' hfs' hsame hus' hfree
    have hassign := assign_eq_of_unprovided_eq linker request.semantics request.formats
      (fun keyword hkeyword => (hsame keyword hkeyword).1)
      (fun keyword hkeyword => (hsame keyword hkeyword).2) hus hus' hfree
    rw [ha] at hassign
    exact ⟨_, link_eq_ok_iff.2 ⟨hscopes, vs', hvs', fs', hfs', a, hassign.symm, rfl⟩, rfl⟩

/-- A pair of which a scope provides a matrix, an array that is too long for a buffer and a
texture. -/
def skyRequest : LinkRequest where
  vertex := "uniform mat4 view;\nuniform vec4 tint;\nuniform sampler2D albedo;\n"
  fragment := "uniform  vec4  tint;\nuniform samplerCube sky;\nuniform float weights[7];\n"
  semantics := ∅
  formats := fun _ => none
  scopes := [⟨fun name => name == "view" || name == "weights", (· == "sky"), "// view\n"⟩]

/-- The rest of the pair is in the mesh group. -/
theorem oneHome_of_link_skyRequest :
    ∃ pair, link ⟨.standard, .standard⟩ skyRequest = .ok pair ∧
      pair.assignment.mesh.fields.map (·.name) = ["tint"] ∧
      pair.assignment.mesh.bindings.textures.map (·.name) = ["albedo"] ∧
      ∃ vs fs all, Declaration.ofSource .vertex skyRequest.vertex = .ok vs ∧
        Declaration.ofSource .fragment skyRequest.fragment = .ok fs ∧
        Uniform.parseAll (uniformLines (Declaration.payloads vs) (Declaration.payloads fs)) =
          .ok all ∧
        OneHome ⟨.standard, .standard⟩ skyRequest pair (Declaration.payloads vs)
          (Declaration.payloads fs) (Uniform.distinct all) := by
  have hnames : (link ⟨.standard, .standard⟩ skyRequest).map (fun pair =>
      (pair.assignment.mesh.fields.map (·.name),
        pair.assignment.mesh.bindings.textures.map (·.name))) = .ok (["tint"], ["albedo"]) := by
    decide +kernel
  obtain ⟨pair, hlink, hnames⟩ := Outcome.map_eq_ok_iff.1 hnames
  obtain ⟨hfields, htextures⟩ := Prod.mk.inj hnames
  exact ⟨pair, hlink, hfields, htextures, oneHome_of_link hlink⟩

end Linker

end ShaderInterface
