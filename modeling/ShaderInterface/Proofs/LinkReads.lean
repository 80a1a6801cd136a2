import ShaderInterface.Link.Linker
import ShaderInterface.Proofs.Outcome

/-!
# What a link reads

`Linker.link_eq_ok_iff` takes a successful link apart into its steps. `Linker.link_congr` says
what a link depends on: the sources, the semantics and formats of the attributes that the vertex
source declares, the code of the scopes, and whether the declared uniforms are provided.
-/

namespace ShaderInterface

open Source (Stripped)

/-! ## Attributes -/

/-- An attribute is placed by the semantic of its name and by the format of that semantic. -/
theorem Attribute.place_congr {semantics semantics' : SemanticMap} {formats formats' : FormatMap}
    {text : String}
    (hsemantics : ∀ v, Variable.parse .vertex .attrib text = .ok v →
      semantics[v.name]? = semantics'[v.name]?)
    (hformats : ∀ v s, Variable.parse .vertex .attrib text = .ok v →
      semantics[v.name]? = some s → formats s = formats' s)
    (location : Semantic → Except UnsupportedSemantic Nat) (placed : Array Attribute) :
    place semantics formats location placed text =
      place semantics' formats' location placed text := by
  unfold place
  cases hparse : Variable.parse .vertex .attrib text with
  | error cause => rfl
  | ok v =>
    dsimp only [bind, Except.bind]
    rw [← hsemantics v hparse]
    cases hsemantic : semantics[v.name]? with
    | none => rfl
    | some s =>
      dsimp only
      rw [hformats v s hparse hsemantic]

/-- Attributes are placed by the semantics of their names and by the formats of these. -/
theorem Attribute.assign_congr {semantics semantics' : SemanticMap} {formats formats' : FormatMap}
    {lines : List String}
    (hsemantics : ∀ text ∈ lines, ∀ v, Variable.parse .vertex .attrib text = .ok v →
      semantics[v.name]? = semantics'[v.name]?)
    (hformats : ∀ text ∈ lines, ∀ v s, Variable.parse .vertex .attrib text = .ok v →
      semantics[v.name]? = some s → formats s = formats' s)
    (location : Semantic → Except UnsupportedSemantic Nat) :
    assign semantics formats location lines = assign semantics' formats' location lines := by
  unfold assign
  congr 1
  generalize (#[] : Array Attribute) = placed
  induction lines generalizing placed with
  | nil => rfl
  | cons text lines ih =>
    rw [List.forall_mem_cons] at hsemantics hformats
    rw [List.foldlM_cons, List.foldlM_cons,
      place_congr hsemantics.1 hformats.1]
    congr 1
    funext placed
    exact ih hsemantics.2 hformats.2 placed

namespace Linker

/-! ## The steps of a link -/

/-- The uniforms that a pair of sources declares. -/
def uniformsOf (vertex fragment : String) : Except LinkError (List Uniform) := do
  let vertex ← Stripped.ofSource .vertex vertex
  let fragment ← Stripped.ofSource .fragment fragment
  uniforms vertex.payloads fragment.payloads

/-- The uniforms of two sources are found in their payloads. -/
theorem uniformsOf_eq {vertex fragment : String} {vs fs : Stripped}
    (hvs : Stripped.ofSource .vertex vertex = .ok vs)
    (hfs : Stripped.ofSource .fragment fragment = .ok fs) :
    uniformsOf vertex fragment = uniforms vs.payloads fs.payloads := by
  rw [uniformsOf, hvs, hfs]
  rfl

/-- The pair that a link makes of two stripped sources and the places of their declarations. -/
def pairOf (scopes : List Scope) (vs fs : Stripped) (a : Assignment) : LinkedPair where
  vertex := vs.inject (vertexBlock scopes a)
  fragment := fs.inject (fragmentBlock scopes a)
  assignment := a

/-- A link counts the scopes, strips the sources, gives the declarations places and puts the
blocks in. -/
theorem link_eq (linker : Linker) (request : LinkRequest) :
    linker.link request =
      if request.scopes.length ≥ linker.options.groups.count then
        .error (.tooManyScopes request.scopes.length linker.options.groups.count)
      else
        Stripped.ofSource .vertex request.vertex >>= fun vs =>
        Stripped.ofSource .fragment request.fragment >>= fun fs =>
        (linker.assign request.semantics request.formats request.scopes vs.payloads
          fs.payloads).map (pairOf request.scopes vs fs) := by
  unfold link
  split
  · rfl
  cases Stripped.ofSource .vertex request.vertex with
  | error cause => rfl
  | ok vs =>
    cases Stripped.ofSource .fragment request.fragment with
    | error cause => rfl
    | ok fs =>
      dsimp only [bind, Except.bind, pure, Except.pure]
      cases linker.assign request.semantics request.formats request.scopes vs.payloads
        fs.payloads with
      | error cause => rfl
      | ok a => rfl

/-- A link succeeds if all of its steps do. -/
theorem link_eq_ok_iff {linker : Linker} {request : LinkRequest} {pair : LinkedPair} :
    linker.link request = .ok pair ↔
      request.scopes.length < linker.options.groups.count ∧
      ∃ vs, Stripped.ofSource .vertex request.vertex = .ok vs ∧
      ∃ fs, Stripped.ofSource .fragment request.fragment = .ok fs ∧
      ∃ a, linker.assign request.semantics request.formats request.scopes vs.payloads fs.payloads
        = .ok a ∧ pairOf request.scopes vs fs a = pair := by
  rw [link_eq]
  split
  · next h => simp [Nat.not_lt.2 h]
  · next h => simp only [Outcome.bind_eq_ok_iff, Outcome.map_eq_ok_iff, Nat.not_le.1 h, true_and]

/-- What a linked pair declares has uniforms without faults. -/
theorem uniforms_of_assign {linker : Linker} {semantics : SemanticMap} {formats : FormatMap}
    {scopes : List Scope} {vertex fragment : Payloads} {a : Assignment}
    (h : linker.assign semantics formats scopes vertex fragment = .ok a) :
    ∃ us, uniforms vertex fragment = .ok us := by
  simp only [assign, Outcome.bind_eq_ok_iff] at h
  obtain ⟨-, -, -, -, -, -, -, -, -, -, us, hus, -⟩ := h
  exact ⟨us, hus⟩

/-- Only a pair whose uniforms have no faults is linked. -/
theorem uniformsOf_of_link {linker : Linker} {request : LinkRequest} {pair : LinkedPair}
    (h : linker.link request = .ok pair) :
    ∃ us, uniformsOf request.vertex request.fragment = .ok us := by
  obtain ⟨-, vs, hvs, fs, hfs, a, ha, -⟩ := link_eq_ok_iff.1 h
  rw [uniformsOf_eq hvs hfs]
  exact uniforms_of_assign ha

/-! ## What the result depends on -/

/-- Of the scopes, the places of the declarations depend only on which uniforms are provided. -/
theorem assign_congr (linker : Linker) {semantics semantics' : SemanticMap}
    {formats formats' : FormatMap} {scopes scopes' : List Scope} {vertex fragment : Payloads}
    (hattributes : ∀ location, Attribute.assign semantics formats location (vertex .attrib) =
      Attribute.assign semantics' formats' location (vertex .attrib))
    (hproviders : ∀ us, uniforms vertex fragment = .ok us → ∀ u ∈ us,
      (Scope.provider? scopes u).isNone = (Scope.provider? scopes' u).isNone) :
    linker.assign semantics formats scopes vertex fragment =
      linker.assign semantics' formats' scopes' vertex fragment := by
  unfold assign
  rw [hattributes]
  cases hus : uniforms vertex fragment with
  | error cause => rfl
  | ok us =>
    have hfilter : us.filter (fun u => (Scope.provider? scopes u).isNone) =
        us.filter (fun u => (Scope.provider? scopes' u).isNone) :=
      List.filter_congr (hproviders us hus)
    dsimp only [bind, Except.bind]
    rw [hfilter]

/-- Of the scopes, the blocks of code depend only on the code. -/
theorem pairOf_congr {scopes scopes' : List Scope} (h : scopes.map (·.code) = scopes'.map (·.code))
    (vs fs : Stripped) (a : Assignment) : pairOf scopes vs fs a = pairOf scopes' vs fs a := by
  rw [pairOf, pairOf, vertexBlock, vertexBlock, fragmentBlock, fragmentBlock, h]

/-- A link depends on nothing but the sources, the semantics and formats of declared attributes,
the code of the scopes and whether they provide the declared uniforms. -/
theorem link_congr (linker : Linker) {request other : LinkRequest}
    (hvertex : request.vertex = other.vertex) (hfragment : request.fragment = other.fragment)
    (hattributes : ∀ vs, Stripped.ofSource .vertex request.vertex = .ok vs → ∀ location,
      Attribute.assign request.semantics request.formats location (vs.payloads .attrib) =
        Attribute.assign other.semantics other.formats location (vs.payloads .attrib))
    (hcodes : request.scopes.map (·.code) = other.scopes.map (·.code))
    (hproviders : ∀ us, uniformsOf request.vertex request.fragment = .ok us → ∀ u ∈ us,
      (Scope.provider? request.scopes u).isNone = (Scope.provider? other.scopes u).isNone) :
    linker.link request = linker.link other := by
  have hlength : request.scopes.length = other.scopes.length := by
    simpa using congrArg List.length hcodes
  -- the steps are taken in order; the first that fails fails in both links
  rw [link_eq, link_eq, ← hlength, ← hvertex, ← hfragment]
  split
  · rfl
  cases hvs : Stripped.ofSource .vertex request.vertex with
  | error cause => rfl
  | ok vs =>
    cases hfs : Stripped.ofSource .fragment request.fragment with
    | error cause => rfl
    | ok fs =>
      dsimp only [bind, Except.bind]
      rw [uniformsOf_eq hvs hfs] at hproviders
      rw [assign_congr linker (hattributes vs hvs) hproviders,
        funext (pairOf_congr hcodes vs fs)]

end Linker

end ShaderInterface
