import ShaderInterface.Proofs.KeyReading
import Std.Data.TreeMap.Lemmas

/-!
# Unambiguous keys

What the key of a request tells of it. Two requests have the same key exactly if they agree in all
that a link reads (`LinkRequest.Agrees`). Main statement: `LinkRequest.HasKey.unambiguous`, by which
keys that differ differ in their bytes, and none begins with another one. So no text of a source or
of a scope can pass for another part of a key.
-/

namespace ShaderInterface

/-! ## Requests that agree -/

/-- Attribute maps with the same entries give each name the same semantic. -/
theorem SemanticMap.getElem?_eq_of_toList_eq {semantics semantics' : SemanticMap}
    (h : semantics.toList = semantics'.toList) (name : String) :
    semantics[name]? = semantics'[name]? := by
  ext s
  rw [← Std.TreeMap.mem_toList_iff_getElem?_eq_some, h,
    Std.TreeMap.mem_toList_iff_getElem?_eq_some]

/-- An attribute map has no entry twice. -/
theorem SemanticMap.nodup_toList (semantics : SemanticMap) : semantics.toList.Nodup := by
  refine semantics.distinct_keys_toList.imp ?_
  rintro a _ h rfl
  exact h Std.ReflCmp.compare_self

/-- Attribute maps that give each name the same semantic have the same entries. -/
theorem SemanticMap.toList_eq_of_getElem?_eq {semantics semantics' : SemanticMap}
    (h : ∀ name : String, semantics[name]? = semantics'[name]?) :
    semantics.toList = semantics'.toList := by
  have hperm : semantics.toList.Perm semantics'.toList := by
    rw [List.perm_ext_iff_of_nodup semantics.nodup_toList semantics'.nodup_toList]
    intro a
    rw [Std.TreeMap.mem_toList_iff_getElem?_eq_some, h,
      ← Std.TreeMap.mem_toList_iff_getElem?_eq_some]
  -- both are sorted by name
  refine hperm.eq_of_pairwise (fun a b _ _ hab hba => ?_) semantics.ordered_keys_toList
    semantics'.ordered_keys_toList
  exact absurd hba (Std.OrientedCmp.not_lt_of_lt hab)

/-- Two requests agree in all that a link reads: in the sources, in the semantics and formats of
the attributes, in the code of the scopes, and in the scope that provides each uniform of the
sources. -/
structure LinkRequest.Agrees (request other : LinkRequest) : Prop where
  vertex : request.vertex = other.vertex
  fragment : request.fragment = other.fragment
  semantics : ∀ name : String, request.semantics[name]? = other.semantics[name]?
  formats : ∀ (name : String) (s : Semantic), request.semantics[name]? = some s →
    request.formats s = other.formats s
  scopeCodes : request.scopes.map (·.code) = other.scopes.map (·.code)
  /-- Without scopes this says nothing, since no scope provides anything. -/
  providers : ∀ us, Linker.uniformsOf request.vertex request.fragment = .ok us → ∀ u ∈ us,
    Scope.provider? request.scopes u = Scope.provider? other.scopes u

/-- A request agrees with itself. -/
theorem LinkRequest.Agrees.refl (request : LinkRequest) : request.Agrees request where
  vertex := rfl
  fragment := rfl
  semantics _ := rfl
  formats _ _ _ := rfl
  scopeCodes := rfl
  providers _ _ _ _ := rfl

/-- Agreement holds both ways. -/
theorem LinkRequest.Agrees.symm {request other : LinkRequest} (h : request.Agrees other) :
    other.Agrees request where
  vertex := h.vertex.symm
  fragment := h.fragment.symm
  semantics name := (h.semantics name).symm
  formats name s hs := (h.formats name s ((h.semantics name).trans hs)).symm
  scopeCodes := h.scopeCodes.symm
  providers us hus u hu := by
    rw [← h.vertex, ← h.fragment] at hus
    exact (h.providers us hus u hu).symm

/-! ## Requests with the same key -/

namespace LinkKey

/-- The part of a key that holds the attributes tells the map and the formats of its semantics. -/
theorem attributes_eq {semantics semantics' : SemanticMap} {formats formats' : FormatMap}
    (h : semantics.toList.map (fun (name, s) => (name, s, formats s)) =
      semantics'.toList.map (fun (name, s) => (name, s, formats' s))) :
    semantics.toList = semantics'.toList ∧
      ∀ (name : String) (s : Semantic), semantics[name]? = some s → formats s = formats' s := by
  have hentries : semantics.toList = semantics'.toList := by
    simpa [List.map_map, Function.comp_def] using
      congrArg (List.map fun a : String × Semantic × Option ElementFormat => (a.1, a.2.1)) h
  refine ⟨hentries, fun name s hs => ?_⟩
  rw [← hentries, List.map_inj_left] at h
  have hformats := h (name, s) (Std.TreeMap.mem_toList_iff_getElem?_eq_some.2 hs)
  exact congrArg (·.2.2) hformats

/-- The part of a key that holds the providers tells which uniforms are provided. -/
theorem provider?_eq_of_providersOf_eq {request other : LinkRequest}
    {ps : List (String × Option Nat)} (hvertex : request.vertex = other.vertex)
    (hfragment : request.fragment = other.fragment)
    (hscopes : request.scopes.length = other.scopes.length)
    (hps : providersOf request = .ok ps) (hother : providersOf other = .ok ps) {us : List Uniform}
    (hus : Linker.uniformsOf request.vertex request.fragment = .ok us) {u : Uniform}
    (hu : u ∈ us) : Scope.provider? request.scopes u = Scope.provider? other.scopes u := by
  rw [providersOf_eq] at hps hother
  rw [← hvertex, ← hfragment] at hother
  simp only [List.isEmpty_iff, ← List.length_eq_zero_iff, ← hscopes] at hps hother
  split at hps
  · next hnone =>
    have hother : other.scopes = [] := List.length_eq_zero_iff.1 (hscopes ▸ hnone)
    rw [List.length_eq_zero_iff.1 hnone, hother]
  · next hsome =>
    rw [if_neg hsome, ← hps, hus] at hother
    have hmap := List.map_inj_left.1 (Except.ok.inj hother).symm u hu
    exact congrArg (·.2) hmap

/-- Requests whose keys have the same bytes agree. -/
theorem agrees_of_bytes_eq {request other : LinkRequest} {key key' : LinkKey}
    (hrequest : request.Sized) (hother : other.Sized) (hkey : ofRequest request = .ok key)
    (hkey' : ofRequest other = .ok key') (h : key.bytes = key'.bytes) : request.Agrees other := by
  have heq : key = key' := readable_bytes.eq_of_isPrefix ⟨request, hrequest, hkey⟩
    ⟨other, hother, hkey'⟩ (h ▸ List.prefix_rfl)
  obtain ⟨ps, hps, rfl⟩ := ofRequest_eq_ok_iff.1 hkey
  obtain ⟨qs, hqs, rfl⟩ := ofRequest_eq_ok_iff.1 hkey'
  obtain ⟨hvertex, hfragment, hattributes, hcodes, rfl⟩ := mk.inj heq
  obtain ⟨hentries, hformats⟩ := attributes_eq hattributes
  have hlength : request.scopes.length = other.scopes.length := by
    simpa using congrArg List.length hcodes
  exact
    { vertex := hvertex
      fragment := hfragment
      semantics := SemanticMap.getElem?_eq_of_toList_eq hentries
      formats := hformats
      scopeCodes := hcodes
      providers := fun us hus u hu =>
        provider?_eq_of_providersOf_eq hvertex hfragment hlength hps hqs hus hu }

/-- Requests that agree have the same key, or none for the same cause. -/
theorem ofRequest_eq_of_agrees {request other : LinkRequest} (h : request.Agrees other) :
    ofRequest request = ofRequest other := by
  have hentries : request.semantics.toList = other.semantics.toList :=
    SemanticMap.toList_eq_of_getElem?_eq h.semantics
  have hattributes :
      request.semantics.toList.map (fun (name, s) => (name, s, request.formats s)) =
        other.semantics.toList.map (fun (name, s) => (name, s, other.formats s)) := by
    rw [← hentries]
    refine List.map_congr_left ?_
    rintro ⟨name, s⟩ ha
    dsimp only
    rw [h.formats name s (Std.TreeMap.mem_toList_iff_getElem?_eq_some.1 ha)]
  have hlength : request.scopes.length = other.scopes.length := by
    simpa using congrArg List.length h.scopeCodes
  have hproviders : providersOf request = providersOf other := by
    rw [providersOf_eq, providersOf_eq, ← h.vertex, ← h.fragment]
    simp only [List.isEmpty_iff, ← List.length_eq_zero_iff, ← hlength]
    cases hus : Linker.uniformsOf request.vertex request.fragment with
    | error cause => rfl
    | ok us =>
      have hmap : us.map (fun u => (u.name, Scope.provider? request.scopes u)) =
          us.map (fun u => (u.name, Scope.provider? other.scopes u)) :=
        List.map_congr_left fun u hu => by rw [h.providers us hus u hu]
      simp only [Except.map, hmap]
  unfold ofRequest
  rw [hproviders, hattributes, h.vertex, h.fragment, h.scopeCodes]

end LinkKey

/-- The key of a request has the given bytes. -/
def LinkRequest.HasKey (request : LinkRequest) (bytes : List UInt8) : Prop :=
  ∃ key, LinkKey.ofRequest request = .ok key ∧ key.bytes = bytes

namespace LinkRequest

variable {request other : LinkRequest} {bytes bytes' : List UInt8}

/-- A request has one key at most. -/
theorem HasKey.inj (h : request.HasKey bytes) (h' : request.HasKey bytes') : bytes = bytes' := by
  obtain ⟨key, hkey, rfl⟩ := h
  obtain ⟨key', hkey', rfl⟩ := h'
  rw [hkey] at hkey'
  rw [Except.ok.inj hkey']

/-- The requests with the key of a given one are those that agree with it. -/
theorem HasKey.iff_agrees (h : request.HasKey bytes) (hrequest : request.Sized)
    (hother : other.Sized) : other.HasKey bytes ↔ other.Agrees request := by
  obtain ⟨key, hkey, rfl⟩ := h
  constructor
  · rintro ⟨key', hkey', hbytes⟩
    exact LinkKey.agrees_of_bytes_eq hother hrequest hkey' hkey hbytes
  · intro hagrees
    exact ⟨key, (LinkKey.ofRequest_eq_of_agrees hagrees).trans hkey, rfl⟩

/-- A key of a request with scopes speaks of uniforms, so these are known. -/
theorem HasKey.exists_uniformsOf (h : request.HasKey bytes) (hscopes : request.scopes ≠ []) :
    ∃ us, Linker.uniformsOf request.vertex request.fragment = .ok us := by
  obtain ⟨key, hkey, -⟩ := h
  obtain ⟨providers, hproviders, -⟩ := LinkKey.ofRequest_eq_ok_iff.1 hkey
  rw [LinkKey.providersOf_eq, if_neg (by rwa [List.isEmpty_iff])] at hproviders
  obtain ⟨us, hus, -⟩ := Outcome.map_eq_ok_iff.1 hproviders
  exact ⟨us, hus⟩

/-- No key of a request begins that of another one, unless both have the same. -/
theorem HasKey.eq_of_isPrefix (h : request.HasKey bytes) (h' : other.HasKey bytes')
    (hrequest : request.Sized) (hother : other.Sized) (hbegins : bytes <+: bytes') :
    bytes = bytes' := by
  obtain ⟨key, hkey, rfl⟩ := h
  obtain ⟨key', hkey', rfl⟩ := h'
  have heq : key = key' := LinkKey.readable_bytes.eq_of_isPrefix ⟨request, hrequest, hkey⟩
    ⟨other, hother, hkey'⟩ hbegins
  rw [heq]

/-- The keys of two requests have the same bytes exactly if the requests agree: in both sources,
in the attribute map and the formats of its semantics, in the code of as many scopes, and, if there
are scopes, in the one that provides each of the uniforms, which are known then. Keys with other
bytes do not even begin with one another. -/
theorem HasKey.unambiguous (hkey : request.HasKey bytes) (hkey' : other.HasKey bytes')
    (hrequest : request.Sized) (hother : other.Sized) :
    (bytes = bytes' ↔ request.Agrees other) ∧
      (bytes <+: bytes' → bytes = bytes') ∧
      (request.scopes ≠ [] →
        ∃ us, Linker.uniformsOf request.vertex request.fragment = .ok us) := by
  refine ⟨⟨?_, ?_⟩, hkey.eq_of_isPrefix hkey' hrequest hother, hkey.exists_uniformsOf⟩
  · rintro rfl
    exact (hkey'.iff_agrees hother hrequest).1 hkey
  · intro hagrees
    exact hkey.inj ((hkey'.iff_agrees hother hrequest).2 hagrees)

/-- A pair with a uniform in each source and two scopes, of which the second one provides what it
is told to, whatever its code says. -/
def fogRequest (provided : List String) : LinkRequest where
  vertex := "uniform vec4 fog;\n"
  fragment := "uniform sampler2D noise;\n"
  semantics := (∅ : SemanticMap).insert "p" .position
  formats := fun _ => some ⟨.uint8, true⟩
  scopes :=
    [⟨fun _ => false, fun _ => false, ""⟩, ⟨provided.contains, provided.contains, "// sky\n"⟩]

/-- The key of the pair, with the scopes that provide its uniforms. -/
def fogKey (fog noise : Option Nat) : LinkKey where
  vertex := "uniform vec4 fog;\n"
  fragment := "uniform sampler2D noise;\n"
  attributes := [("p", .position, some ⟨.uint8, true⟩)]
  scopeCodes := ["", "// sky\n"]
  providers := [("fog", fog), ("noise", noise)]

/-- The sizes of the pair fit into a word. -/
theorem fogRequest_sized (provided : List String) : (fogRequest provided).Sized where
  vertex := (by decide : "uniform vec4 fog;\n".utf8ByteSize < Code.wordLimit)
  fragment := (by decide : "uniform sampler2D noise;\n".utf8ByteSize < Code.wordLimit)
  semantics := by
    have hentries : (fogRequest provided).semantics.toList = [("p", .position)] := rfl
    rw [hentries]
    decide
  scopes := by
    refine ⟨(by decide : 2 < Code.wordLimit), ?_⟩
    simp only [fogRequest, List.forall_mem_cons]
    exact ⟨by decide, by decide, List.forall_mem_nil _⟩

/-- The keys of the pair tell which uniform is provided, though the scopes have the same code. -/
theorem HasKey.unambiguous_fogRequest :
    let bytes := (fogKey (some 1) none).bytes
    let bytes' := (fogKey none (some 1)).bytes
    (fogRequest ["fog"]).HasKey bytes ∧ (fogRequest ["noise"]).HasKey bytes' ∧
      (fogRequest ["fog"]).Sized ∧ (fogRequest ["noise"]).Sized ∧
      ¬ (fogRequest ["fog"]).Agrees (fogRequest ["noise"]) ∧ ¬ bytes <+: bytes' := by
  intro bytes bytes'
  have hfog : (fogRequest ["fog"]).HasKey bytes := ⟨_, by decide +kernel, rfl⟩
  have hnoise : (fogRequest ["noise"]).HasKey bytes' := ⟨_, by decide +kernel, rfl⟩
  have hne : bytes ≠ bytes' := by decide +kernel
  obtain ⟨hiff, hbegins, -⟩ :=
    HasKey.unambiguous hfog hnoise (fogRequest_sized _) (fogRequest_sized _)
  exact ⟨hfog, hnoise, fogRequest_sized _, fogRequest_sized _, fun h => hne (hiff.2 h),
    fun h => hne (hbegins h)⟩

end LinkRequest

end ShaderInterface
