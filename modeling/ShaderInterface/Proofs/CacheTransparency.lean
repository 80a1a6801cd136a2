import Mathlib.Data.Set.Function
import ShaderInterface.Link.Cache
import ShaderInterface.Proofs.UnambiguousKeys
import Std.Data.HashMap.Lemmas

/-!
# The cache answers like its linker

A cache is used by a run of steps: requests are answered, options are set and all links are
forgotten. Every answer in such a run is the one that the linker of the cache would give by
itself, if the digest tells apart the keys of the run (`LinkCache.CollisionFree`). The invariant is
`LinkCache.Faithful`: each remembered link is one that the linker makes of some request of the run
whose key has that digest. It carries over to all requests of the run with the digest, since these
have the same key then, and requests whose keys have the same bytes agree in all that a link reads
(`LinkRequest.Agrees`).
-/

namespace ShaderInterface

/-! ## Links of requests with the same key -/

/-- A request that has no key is not linked. -/
theorem LinkKey.link_eq_error_of_ofRequest_eq_error (linker : Linker) {request : LinkRequest}
    {cause : LinkError} (h : ofRequest request = .error cause) :
    ∃ first, linker.link request = .error first := by
  cases hlink : linker.link request with
  | error first => exact ⟨first, rfl⟩
  | ok pair =>
    -- all that can fail in making the key has not failed in the link
    obtain ⟨us, hus⟩ := Linker.uniformsOf_of_link hlink
    have hproviders : ∃ ps, providersOf request = .ok ps := by
      rw [providersOf_eq, hus]
      split <;> exact ⟨_, rfl⟩
    obtain ⟨ps, hps⟩ := hproviders
    rw [ofRequest_eq_ok_iff.2 ⟨ps, hps, rfl⟩] at h
    contradiction

/-- Requests that agree are linked alike. -/
theorem Linker.link_eq_of_agrees (linker : Linker) {request other : LinkRequest}
    (h : request.Agrees other) : linker.link request = linker.link other := by
  refine linker.link_congr h.vertex h.fragment (fun vs _ location => ?_) h.scopeCodes ?_
  · exact Attribute.assign_congr (fun _ _ v _ => h.semantics v.name)
      (fun _ _ v s _ hs => h.formats v.name s hs) location
  · intro us hus u hu
    rw [h.providers us hus u hu]

/-! ## Runs of a cache -/

namespace LinkCache

variable {H : Type}

/-- No two keys of the requests have the same digest. -/
def CollisionFree (digest : List UInt8 → H) (requests : List LinkRequest) : Prop :=
  Set.InjOn digest {bytes | ∃ request ∈ requests, request.HasKey bytes}

/-- With fewer requests there are no more keys to tell apart. -/
theorem CollisionFree.mono {digest : List UInt8 → H} {requests requests' : List LinkRequest}
    (h : CollisionFree digest requests') (hsubset : requests ⊆ requests') :
    CollisionFree digest requests := by
  refine Set.InjOn.mono ?_ h
  rintro bytes ⟨request, hmem, hkey⟩
  exact ⟨request, hsubset hmem, hkey⟩

/-- What can be done with a cache. -/
inductive Step where
  | link (request : LinkRequest)
  | setOptions (options : Options)
  | clear

/-- The request that is answered in a step. -/
def Step.request? : Step → Option LinkRequest
  | link request => some request
  | setOptions _ | clear => none

/-- The options that a step sets. -/
def Step.options? : Step → Option Options
  | setOptions options => some options
  | link _ | clear => none

/-- The requests that are answered in a run of steps. -/
def asked (steps : List Step) : List LinkRequest :=
  steps.filterMap Step.request?

variable [DecidableEq H] [Hashable H] (digest : List UInt8 → H)

/-- The cache behind a step. -/
def step (cache : LinkCache H) : Step → LinkCache H
  | .link request => (cache.link digest request).2
  | .setOptions options => cache.setOptions options
  | .clear => cache.clear

/-- The cache behind a run of steps. -/
def run (cache : LinkCache H) (steps : List Step) : LinkCache H :=
  steps.foldl (step digest) cache

/-- Each remembered link is one that the linker makes of some request, among the given ones, whose
key has that digest. -/
def Faithful (requests : List LinkRequest) (cache : LinkCache H) : Prop :=
  ∀ code pair, cache.entries[code]? = some pair →
    ∃ request ∈ requests, ∃ bytes, request.HasKey bytes ∧ digest bytes = code ∧
      cache.linker.link request = .ok pair

variable {digest}

/-! ## One step -/

/-- A request without a key is answered with the cause that its link gives, and nothing is
remembered. -/
theorem link_of_ofRequest_eq_error (digest : List UInt8 → H) (cache : LinkCache H)
    {request : LinkRequest} {cause : LinkError} (h : LinkKey.ofRequest request = .error cause) :
    ∃ first, cache.linker.link request = .error first ∧
      cache.link digest request = (.error first, { cache with misses := cache.misses + 1 }) := by
  obtain ⟨first, hfirst⟩ := LinkKey.link_eq_error_of_ofRequest_eq_error cache.linker h
  refine ⟨first, hfirst, ?_⟩
  rw [link, h]
  dsimp only
  rw [hfirst]

/-- A request with a remembered digest is answered with the remembered link. -/
theorem link_of_getElem?_eq_some (cache : LinkCache H) {request : LinkRequest} {key : LinkKey}
    {pair : LinkedPair} (hkey : LinkKey.ofRequest request = .ok key)
    (hentry : cache.entries[digest key.bytes]? = some pair) :
    cache.link digest request = (.ok (.memory, pair), { cache with hits := cache.hits + 1 }) := by
  rw [link, hkey]
  dsimp only
  rw [hentry]

/-- A request whose digest is not remembered is linked; a link that succeeds is remembered. -/
theorem link_of_getElem?_eq_none (cache : LinkCache H) {request : LinkRequest} {key : LinkKey}
    (hkey : LinkKey.ofRequest request = .ok key)
    (hentry : cache.entries[digest key.bytes]? = none) :
    cache.link digest request = match cache.linker.link request with
      | .error cause => (.error cause, { cache with misses := cache.misses + 1 })
      | .ok pair => (.ok (.linked, pair), { cache with
          misses := cache.misses + 1
          entries := cache.entries.insert (digest key.bytes) pair }) := by
  cases hlink : cache.linker.link request with
  | error cause => simp [link, hkey, hentry, hlink]
  | ok pair => simp [link, hkey, hentry, hlink]

/-- A request fails, or is answered from memory, or is linked and remembered. It fails or is linked
only if the digest of its key is not remembered, and just as the linker does it. -/
theorem link_cases (digest : List UInt8 → H) (cache : LinkCache H) (request : LinkRequest) :
    (∃ cause, (∀ bytes, request.HasKey bytes → digest bytes ∉ cache.entries) ∧
      cache.linker.link request = .error cause ∧
      cache.link digest request = (.error cause, { cache with misses := cache.misses + 1 })) ∨
    (∃ bytes pair, request.HasKey bytes ∧ cache.entries[digest bytes]? = some pair ∧
      cache.link digest request =
        (.ok (.memory, pair), { cache with hits := cache.hits + 1 })) ∨
    (∃ bytes pair, request.HasKey bytes ∧ digest bytes ∉ cache.entries ∧
      cache.linker.link request = .ok pair ∧
      cache.link digest request = (.ok (.linked, pair), { cache with
        misses := cache.misses + 1, entries := cache.entries.insert (digest bytes) pair })) := by
  cases hkey : LinkKey.ofRequest request with
  | error cause =>
    obtain ⟨first, hfirst, hlink⟩ := cache.link_of_ofRequest_eq_error digest hkey
    refine .inl ⟨first, fun bytes hbytes => ?_, hfirst, hlink⟩
    obtain ⟨key, hkey', -⟩ := hbytes
    rw [hkey] at hkey'
    contradiction
  | ok key =>
    have hbytes : request.HasKey key.bytes := ⟨key, hkey, rfl⟩
    cases hentry : cache.entries[digest key.bytes]? with
    | some pair =>
      exact .inr (.inl ⟨_, pair, hbytes, hentry, cache.link_of_getElem?_eq_some hkey hentry⟩)
    | none =>
      have hmem : digest key.bytes ∉ cache.entries := (getElem?_eq_none_iff ..).1 hentry
      have hlink := cache.link_of_getElem?_eq_none hkey hentry
      cases hpair : cache.linker.link request with
      | error cause =>
        rw [hpair] at hlink
        exact .inl ⟨cause, fun _ h => hbytes.inj h ▸ hmem, rfl, hlink⟩
      | ok pair =>
        rw [hpair] at hlink
        exact .inr (.inr ⟨_, pair, hbytes, hmem, rfl, hlink⟩)

/-- Answering a request changes neither the tables nor the options. -/
theorem linker_link (cache : LinkCache H) (request : LinkRequest) :
    (cache.link digest request).2.linker = cache.linker := by
  obtain ⟨_, -, -, hlink⟩ | ⟨_, _, -, -, hlink⟩ | ⟨_, _, -, -, -, hlink⟩ :=
    cache.link_cases digest request
  all_goals rw [hlink]

variable {requests : List LinkRequest} {cache : LinkCache H}

/-- Nothing is remembered in a new cache. -/
theorem faithful_empty (linker : Linker) :
    (empty linker : LinkCache H).Faithful digest requests := by
  intro code pair h
  simp [empty] at h

/-- Forgetting all links keeps a cache faithful. -/
theorem Faithful.clear : cache.clear.Faithful digest requests := by
  intro code pair h
  simp [LinkCache.clear] at h

/-- Setting options keeps a cache faithful: new options make other links, but then all links are
forgotten. -/
theorem Faithful.setOptions (h : cache.Faithful digest requests) (options : Options) :
    (cache.setOptions options).Faithful digest requests := by
  unfold LinkCache.setOptions
  split
  · exact h
  · intro code pair hentry
    simp at hentry

/-- Answering a request keeps a cache faithful: what is added is the link of that request. -/
theorem Faithful.link (h : cache.Faithful digest requests) {request : LinkRequest}
    (hmem : request ∈ requests) : (cache.link digest request).2.Faithful digest requests := by
  obtain ⟨_, -, -, hlink⟩ | ⟨_, _, -, -, hlink⟩ | ⟨bytes, pair, hkey, -, hpair, hlink⟩ :=
    cache.link_cases digest request
  · rw [hlink]
    exact h
  · rw [hlink]
    exact h
  · rw [hlink]
    -- an entry is the new one, made of this request, or was there before
    intro code pair' hentry
    dsimp only at hentry
    rw [Std.HashMap.getElem?_insert] at hentry
    split at hentry
    · next heq =>
      obtain rfl := Option.some.inj hentry
      exact ⟨request, hmem, bytes, hkey, eq_of_beq heq, hpair⟩
    · exact h code pair' hentry

/-- Every step keeps a cache faithful. -/
theorem Faithful.step (h : cache.Faithful digest requests) {s : Step}
    (hmem : ∀ request ∈ s.request?, request ∈ requests) :
    (cache.step digest s).Faithful digest requests := by
  cases s with
  | link request => exact h.link (hmem request rfl)
  | setOptions options => exact h.setOptions options
  | clear => exact Faithful.clear

/-- A faithful cache answers each of the requests as its linker does, if their keys have different
digests. -/
theorem Faithful.map_snd_link (h : cache.Faithful digest requests)
    (hsized : ∀ other ∈ requests, other.Sized) (hfree : CollisionFree digest requests)
    {request : LinkRequest} (hmem : request ∈ requests) :
    (cache.link digest request).1.map (·.2) = cache.linker.link request := by
  obtain ⟨_, -, hfails, hlink⟩ | ⟨bytes, pair, hkey, hentry, hlink⟩ | ⟨_, _, -, -, hpair, hlink⟩ :=
    cache.link_cases digest request
  · rw [hlink, hfails]
    rfl
  · -- the remembered link was made of a request with the same digest, so of one that agrees
    obtain ⟨other, hother, bytes', hkey', hdigest, hpair⟩ := h _ pair hentry
    obtain rfl : bytes' = bytes := hfree ⟨other, hother, hkey'⟩ ⟨request, hmem, hkey⟩ hdigest
    have hagrees : other.Agrees request :=
      (hkey.iff_agrees (hsized _ hmem) (hsized _ hother)).1 hkey'
    rw [hlink, ← cache.linker.link_eq_of_agrees hagrees, hpair]
    rfl
  · rw [hlink, hpair]
    rfl

/-! ## All steps of a run -/

/-- A run that starts with a faithful cache ends with one. -/
theorem Faithful.run (h : cache.Faithful digest requests) {steps : List Step}
    (hmem : asked steps ⊆ requests) : (cache.run digest steps).Faithful digest requests := by
  induction steps generalizing cache with
  | nil => exact h
  | cons s steps ih =>
    have hs : ∀ request ∈ s.request?, request ∈ requests := fun request hrequest =>
      hmem (List.mem_filterMap.2 ⟨s, List.mem_cons_self, hrequest⟩)
    have hrest : asked steps ⊆ requests := fun request hrequest => by
      obtain ⟨s', hs', hrequest⟩ := List.mem_filterMap.1 hrequest
      exact hmem (List.mem_filterMap.2 ⟨s', List.mem_cons_of_mem s hs', hrequest⟩)
    exact ih (h.step hs) hrest

/-- A step changes no more of the linker than the options. -/
theorem linker_step (cache : LinkCache H) (s : Step) :
    (cache.step digest s).linker =
      { cache.linker with options := s.options?.getD cache.linker.options } := by
  cases s with
  | link request => exact cache.linker_link request
  | clear => rfl
  | setOptions options =>
    rw [step, setOptions]
    split
    · next h => rw [← h]; rfl
    · rfl

/-- Behind a run the linker has its old tables and the options that were set last. -/
theorem linker_run (cache : LinkCache H) (steps : List Step) :
    (cache.run digest steps).linker = { cache.linker with
      options := (steps.filterMap Step.options?).getLast?.getD cache.linker.options } := by
  induction steps generalizing cache with
  | nil => rfl
  | cons s steps ih =>
    have hrun : cache.run digest (s :: steps) = (cache.step digest s).run digest steps :=
      List.foldl_cons ..
    rw [hrun, ih, linker_step]
    cases s with
    | link request => rfl
    | clear => rfl
    | setOptions options => simp [Step.options?, List.getLast?_cons]

/-- In every run of a cache whose digest tells its keys apart, each request is answered as the
linker answers it with the tables of the beginning and the options that were set last, from memory
or not. A request without a key is answered with the cause that its link gives, so the cause for
which it has no key is never the answer. -/
theorem map_snd_link_run (digest : List UInt8 → H) (linker : Linker) (steps : List Step)
    (request : LinkRequest) (hsized : ∀ other ∈ request :: asked steps, other.Sized)
    (hfree : CollisionFree digest (request :: asked steps)) :
    let cache := (empty linker : LinkCache H).run digest steps
    cache.linker = { linker with
        options := (steps.filterMap Step.options?).getLast?.getD linker.options } ∧
      (cache.link digest request).1.map (·.2) = cache.linker.link request ∧
      ∀ cause, LinkKey.ofRequest request = .error cause →
        ∃ first, cache.linker.link request = .error first ∧
          (cache.link digest request).1 = .error first := by
  intro cache
  have hfaithful : cache.Faithful digest (request :: asked steps) :=
    (faithful_empty linker).run (List.subset_cons_self request (asked steps))
  refine ⟨linker_run (empty linker) steps,
    hfaithful.map_snd_link hsized hfree List.mem_cons_self, ?_⟩
  intro cause hcause
  obtain ⟨first, hfirst, hlink⟩ := cache.link_of_ofRequest_eq_error digest hcause
  exact ⟨first, hfirst, by rw [hlink]⟩

/-! ## Two pairs -/

/-- A pair with an attribute that is stored as integers, and a uniform that its scope provides if
it is told to, whatever its code says. -/
def tintRequest (provided : Bool) : LinkRequest where
  vertex := "attribute vec3 p;\nuniform vec4 tint;\n"
  fragment := "uniform vec4 tint;\n"
  semantics := (∅ : SemanticMap).insert "p" .position
  formats := fun _ => some ⟨.uint8, false⟩
  scopes := [⟨fun name => provided && name == "tint", fun _ => false, "// view\n"⟩]

/-- The key of the pair. -/
def tintKey (provided : Bool) : LinkKey where
  vertex := "attribute vec3 p;\nuniform vec4 tint;\n"
  fragment := "uniform vec4 tint;\n"
  attributes := [("p", .position, some ⟨.uint8, false⟩)]
  scopeCodes := ["// view\n"]
  providers := [("tint", if provided then some 0 else none)]

/-- The sizes of the pair fit into a word. -/
theorem tintRequest_sized (provided : Bool) : (tintRequest provided).Sized where
  vertex := (by decide : "attribute vec3 p;\nuniform vec4 tint;\n".utf8ByteSize < Code.wordLimit)
  fragment := (by decide : "uniform vec4 tint;\n".utf8ByteSize < Code.wordLimit)
  semantics := by
    have hentries : (tintRequest provided).semantics.toList = [("p", .position)] := rfl
    rw [hentries]
    decide
  scopes := by
    refine ⟨(by decide : 1 < Code.wordLimit), ?_⟩
    simp only [tintRequest, List.forall_mem_cons]
    exact ⟨by decide, List.forall_mem_nil _⟩

/-- The pair has its key. -/
theorem hasKey_tintRequest (provided : Bool) :
    (tintRequest provided).HasKey (tintKey provided).bytes :=
  ⟨tintKey provided, by cases provided <;> decide +kernel, rfl⟩

/-- The BLAKE3 hash of the keys of the two pairs. No other key is looked at. -/
def tintDigest (bytes : List UInt8) : BitVec 256 :=
  if bytes = (tintKey true).bytes then
    0x85fa03c54dc91de64c1e1973e643e0b563e8d54e031edaf7fadd7bf62f15b8a7
  else if bytes = (tintKey false).bytes then
    0x74debe82b60182a77b639e546071da512f3b6db9b41b550d25eda0bbb5947fda
  else 0

/-- The hash tells the two keys apart. -/
theorem collisionFree_tintDigest :
    CollisionFree tintDigest [tintRequest true, tintRequest false] := by
  have hkeys : ∀ bytes, (∃ request ∈ [tintRequest true, tintRequest false],
      request.HasKey bytes) → ∃ provided, bytes = (tintKey provided).bytes := by
    rintro bytes ⟨request, hmem, hkey⟩
    simp only [List.mem_cons, List.not_mem_nil, or_false] at hmem
    rcases hmem with rfl | rfl
    · exact ⟨true, hkey.inj (hasKey_tintRequest true)⟩
    · exact ⟨false, hkey.inj (hasKey_tintRequest false)⟩
  have hapart : ∀ provided provided', tintDigest (tintKey provided).bytes =
      tintDigest (tintKey provided').bytes → provided = provided' := by
    decide +kernel
  intro bytes hbytes bytes' hbytes' heq
  obtain ⟨provided, rfl⟩ := hkeys bytes hbytes
  obtain ⟨provided', rfl⟩ := hkeys bytes' hbytes'
  rw [hapart provided provided' heq]

/-- The pair is answered alike before and after the options change and other scopes are asked for,
and when it is asked for again. -/
theorem map_snd_link_run_tintRequest :
    let steps := [.link (tintRequest true), .setOptions ⟨.filterable, .standard⟩,
      .link (tintRequest false), .link (tintRequest true)]
    let cache := (empty ⟨.standard, .standard⟩ : LinkCache (BitVec 256)).run tintDigest steps
    (∀ other ∈ tintRequest true :: asked steps, other.Sized) ∧
      CollisionFree tintDigest (tintRequest true :: asked steps) ∧
      cache.linker = ⟨.standard, ⟨.filterable, .standard⟩⟩ ∧
      (cache.link tintDigest (tintRequest true)).1.map (·.2) =
        cache.linker.link (tintRequest true) ∧
      ∀ cause, LinkKey.ofRequest (tintRequest true) = .error cause →
        ∃ first, cache.linker.link (tintRequest true) = .error first ∧
          (cache.link tintDigest (tintRequest true)).1 = .error first := by
  intro steps cache
  have hasked : asked steps = [tintRequest true, tintRequest false, tintRequest true] := rfl
  have hsized : ∀ other ∈ tintRequest true :: asked steps, other.Sized := by
    simp [hasked, tintRequest_sized]
  have hfree : CollisionFree tintDigest (tintRequest true :: asked steps) :=
    collisionFree_tintDigest.mono (by simp [hasked])
  exact ⟨hsized, hfree,
    map_snd_link_run tintDigest ⟨.standard, .standard⟩ steps (tintRequest true) hsized hfree⟩

end LinkCache

end ShaderInterface
