import Mathlib.Data.List.Induction
import ShaderInterface.Proofs.CacheTransparency

/-!
# What a cache knows of its past

The links that a cache remembers and the numbers that it counts are told by the steps since its
beginning. A request is answered from memory if one that agrees with it was answered before and
not forgotten since (`LinkCache.Answered`). The invariant is `LinkCache.mem_entries_run`: the
remembered digests are those of the requests that were answered and not forgotten. It rests on
`LinkCache.link_cases`, which says all that a cache can do with a request. Only where digests are
read back as requests must they tell the keys apart.
-/

namespace ShaderInterface

namespace LinkCache

variable {H : Type} [DecidableEq H] [Hashable H] {digest : List UInt8 → H} {cache : LinkCache H}
  {request : LinkRequest} {code : H} {steps : List Step}

/-! ## What a cache does with a request -/

/-- The answer is a remembered link. -/
def fromMemory (answer : Except LinkError (Provenance × LinkedPair)) : Bool :=
  answer.toOption.any (·.1 = .memory)

@[simp]
theorem fromMemory_error (cause : LinkError) : fromMemory (.error cause) = false := rfl

@[simp]
theorem fromMemory_ok (provenance : Provenance) (pair : LinkedPair) :
    fromMemory (.ok (provenance, pair)) = decide (provenance = .memory) := rfl

/-- The requests that are answered from memory are those with a remembered digest. -/
theorem fromMemory_link_iff :
    fromMemory (cache.link digest request).1 ↔
      ∃ bytes, digest bytes ∈ cache.entries ∧ request.HasKey bytes := by
  obtain ⟨_, hnone, -, hlink⟩ | ⟨bytes, _, hkey, hentry, hlink⟩ | ⟨_, _, hkey, hnew, -, hlink⟩ :=
    cache.link_cases digest request
  · rw [hlink]
    simpa using fun bytes hmem hkey => hnone bytes hkey hmem
  · have hmem : digest bytes ∈ cache.entries := (Std.HashMap.getElem?_eq_some_iff.1 hentry).1
    rw [hlink]
    simpa using ⟨bytes, hmem, hkey⟩
  · have hnone : ∀ bytes, digest bytes ∈ cache.entries → ¬ request.HasKey bytes :=
      fun bytes hmem hkey' => hnew (hkey.inj hkey' ▸ hmem)
    rw [hlink]
    simpa using hnone

/-- A request that is answered with a link has a key. -/
theorem exists_hasKey_of_link {answer : Provenance × LinkedPair}
    (h : (cache.link digest request).1 = .ok answer) : ∃ bytes, request.HasKey bytes := by
  obtain ⟨_, -, -, hlink⟩ | ⟨bytes, _, hkey, -⟩ | ⟨bytes, _, hkey, -⟩ :=
    cache.link_cases digest request
  · rw [hlink] at h
    contradiction
  · exact ⟨bytes, hkey⟩
  · exact ⟨bytes, hkey⟩

/-- The key of a request has the given digest. -/
def HasDigest (digest : List UInt8 → H) (request : LinkRequest) (code : H) : Prop :=
  ∃ bytes, request.HasKey bytes ∧ digest bytes = code

/-- Behind a request, its digest is remembered if it was answered with a link, and all digests that
were remembered before. -/
theorem mem_entries_link :
    code ∈ (cache.link digest request).2.entries ↔ code ∈ cache.entries ∨
      HasDigest digest request code ∧ ∃ answer, (cache.link digest request).1 = .ok answer := by
  obtain ⟨_, -, -, hlink⟩ | ⟨bytes, _, hkey, hentry, hlink⟩ | ⟨bytes, _, hkey, -, -, hlink⟩ :=
    cache.link_cases digest request
  · rw [hlink]
    simp
  · have hmem : digest bytes ∈ cache.entries := (Std.HashMap.getElem?_eq_some_iff.1 hentry).1
    have hcode : HasDigest digest request code → code ∈ cache.entries := by
      rintro ⟨bytes', hkey', rfl⟩
      exact hkey.inj hkey' ▸ hmem
    rw [hlink]
    simpa using hcode
  · have hiff : HasDigest digest request code ↔ digest bytes = code := by
      constructor
      · rintro ⟨bytes', hkey', rfl⟩
        rw [hkey.inj hkey']
      · rintro rfl
        exact ⟨bytes, hkey, rfl⟩
    rw [hlink, hiff]
    simp [or_comm]

/-- A request that fails is counted, and nothing else changes. -/
theorem link_of_fst_eq_error {cause : LinkError}
    (h : (cache.link digest request).1 = .error cause) :
    (cache.link digest request).2 = { cache with misses := cache.misses + 1 } := by
  obtain ⟨_, -, -, hlink⟩ | ⟨_, _, -, -, hlink⟩ | ⟨_, _, -, -, -, hlink⟩ :=
    cache.link_cases digest request
  · rw [hlink]
  · rw [hlink] at h
    contradiction
  · rw [hlink] at h
    contradiction

/-- A request is counted as a hit if it is answered from memory. -/
theorem hits_link :
    (cache.link digest request).2.hits =
      cache.hits + if fromMemory (cache.link digest request).1 then 1 else 0 := by
  obtain ⟨_, -, -, hlink⟩ | ⟨_, _, -, -, hlink⟩ | ⟨_, _, -, -, -, hlink⟩ :=
    cache.link_cases digest request
  all_goals rw [hlink]; rfl

/-- A request is counted once. -/
theorem hits_add_misses_link :
    (cache.link digest request).2.hits + (cache.link digest request).2.misses =
      cache.hits + cache.misses + 1 := by
  obtain ⟨_, -, -, hlink⟩ | ⟨_, _, -, -, hlink⟩ | ⟨_, _, -, -, -, hlink⟩ :=
    cache.link_cases digest request
  all_goals rw [hlink]; dsimp only; omega

/-! ## What a cache does in a step -/

/-- The step makes a cache with the given options forget its links. -/
def Step.Forgets (options : Options) : Step → Prop
  | link _ => False
  | setOptions options' => options ≠ options'
  | clear => True

/-- Setting the options that are set changes nothing. -/
theorem setOptions_options (cache : LinkCache H) :
    cache.setOptions cache.linker.options = cache := by
  rw [setOptions, if_pos rfl]

/-- A step in which nothing is forgotten changes neither the tables nor the options. -/
theorem linker_step_of_not_forgets {s : Step} (h : ¬ s.Forgets cache.linker.options) :
    (cache.step digest s).linker = cache.linker := by
  cases s with
  | link request => exact cache.linker_link request
  | clear => exact (h trivial).elim
  | setOptions options =>
    obtain rfl : cache.linker.options = options := not_not.1 h
    rw [step, setOptions_options]

/-- The digests that are remembered behind a step are those from before, unless they were forgotten,
and that of the request which was answered in the step. -/
theorem mem_entries_step {s : Step} :
    code ∈ (cache.step digest s).entries ↔
      (∃ request, (∃ answer, s = .link request ∧ (cache.link digest request).1 = .ok answer) ∧
        HasDigest digest request code) ∨
      (¬ s.Forgets cache.linker.options ∧ code ∈ cache.entries) := by
  cases s with
  | link request =>
    rw [step, mem_entries_link]
    simp [Step.Forgets, or_comm, and_comm]
  | clear => simp [step, clear, Step.Forgets]
  | setOptions options =>
    rw [step, setOptions]
    split
    · next h => simp [Step.Forgets, h]
    · next h => simp [Step.Forgets, h]

/-! ## Requests that were answered -/

/-- The request was answered with a link in one of the steps, and the cache has not forgotten its
links since. -/
def Answered (digest : List UInt8 → H) (cache : LinkCache H) (steps : List Step)
    (request : LinkRequest) : Prop :=
  ∃ before after answer, steps = before ++ .link request :: after ∧
    ((cache.run digest before).link digest request).1 = .ok answer ∧
    ∀ s ∈ after, ¬ s.Forgets (cache.run digest before).linker.options

/-- A run in two parts. -/
theorem run_append (cache : LinkCache H) (before after : List Step) :
    cache.run digest (before ++ after) = (cache.run digest before).run digest after :=
  List.foldl_append ..

/-- A run in which nothing is forgotten changes neither the tables nor the options. -/
theorem linker_run_of_not_forgets (h : ∀ s ∈ steps, ¬ s.Forgets cache.linker.options) :
    (cache.run digest steps).linker = cache.linker := by
  induction steps generalizing cache with
  | nil => rfl
  | cons s steps ih =>
    rw [List.forall_mem_cons] at h
    have hs : (cache.step digest s).linker = cache.linker := linker_step_of_not_forgets h.1
    exact (ih (hs ▸ h.2)).trans hs

/-- Since a request that is not forgotten the options are the same. -/
theorem linker_run_append_link {before after : List Step}
    (h : ∀ s ∈ after, ¬ s.Forgets (cache.run digest before).linker.options) :
    (cache.run digest (before ++ .link request :: after)).linker =
      (cache.run digest before).linker := by
  rw [run_append]
  exact linker_run_of_not_forgets (List.forall_mem_cons.2 ⟨id, h⟩)

/-- With one step more, the request that was answered in it is added, or those from before are
forgotten in it. -/
theorem answered_append_singleton {s : Step} :
    cache.Answered digest (steps ++ [s]) request ↔
      (∃ answer, s = .link request ∧
        ((cache.run digest steps).link digest request).1 = .ok answer) ∨
      (¬ s.Forgets (cache.run digest steps).linker.options ∧
        cache.Answered digest steps request) := by
  constructor
  · rintro ⟨before, after, answer, hsteps, hanswer, hafter⟩
    obtain rfl | ⟨after, last, rfl⟩ := List.eq_nil_or_concat after
    · obtain ⟨rfl, rfl⟩ := List.append_singleton_inj.1 hsteps
      exact .inl ⟨answer, rfl, hanswer⟩
    · rw [List.concat_eq_append, ← List.cons_append, ← List.append_assoc] at hsteps
      obtain ⟨rfl, rfl⟩ := List.append_singleton_inj.1 hsteps
      rw [List.concat_eq_append, List.forall_mem_append, List.forall_mem_singleton] at hafter
      rw [linker_run_append_link hafter.1]
      exact .inr ⟨hafter.2, before, after, answer, rfl, hanswer, hafter.1⟩
  · rintro (⟨answer, rfl, hanswer⟩ | ⟨hs, before, after, answer, rfl, hanswer, hafter⟩)
    · exact ⟨steps, [], answer, rfl, hanswer, List.forall_mem_nil _⟩
    · rw [linker_run_append_link hafter] at hs
      refine ⟨before, after ++ [s], answer, by simp, hanswer, ?_⟩
      rw [List.forall_mem_append, List.forall_mem_singleton]
      exact ⟨hafter, hs⟩

/-- The digests that a new cache remembers behind a run are those of the requests that were answered
and not forgotten. -/
theorem mem_entries_run (linker : Linker) (steps : List Step) :
    code ∈ ((empty linker).run digest steps).entries ↔
      ∃ request, (empty linker).Answered digest steps request ∧ HasDigest digest request code := by
  induction steps using List.reverseRecOn with
  | nil =>
    simp [run, empty, Answered]
  | append_singleton steps s ih =>
    have hrun : (empty linker).run digest (steps ++ [s]) =
        ((empty linker).run digest steps).step digest s :=
      run_append ..
    rw [hrun, mem_entries_step, ih]
    simp only [answered_append_singleton, or_and_right, exists_or, and_assoc, exists_and_left]

/-! ## Counting -/

/-- The answers to the requests of a run. -/
def answers (digest : List UInt8 → H) (cache : LinkCache H) :
    List Step → List (Except LinkError (Provenance × LinkedPair))
  | [] => []
  | s :: steps =>
    (s.request?.map fun request => (cache.link digest request).1).toList ++
      answers digest (cache.step digest s) steps

/-- A step counts as a hit if its request is answered from memory. -/
theorem hits_step (s : Step) : (cache.step digest s).hits = cache.hits +
    ((s.request?.map fun request => (cache.link digest request).1).toList).countP fromMemory := by
  cases s with
  | link request =>
    exact hits_link.trans (congrArg _ List.countP_singleton.symm)
  | clear => rfl
  | setOptions options =>
    rw [step, setOptions]
    split <;> rfl

/-- A step is counted if it answers a request. -/
theorem hits_add_misses_step (s : Step) :
    (cache.step digest s).hits + (cache.step digest s).misses =
      cache.hits + cache.misses + s.request?.toList.length := by
  cases s with
  | link request => exact hits_add_misses_link
  | clear => rfl
  | setOptions options =>
    rw [step, setOptions]
    split <;> rfl

/-- The hits of a run are its answers from memory. -/
theorem hits_run (cache : LinkCache H) (steps : List Step) :
    (cache.run digest steps).hits =
      cache.hits + (cache.answers digest steps).countP fromMemory := by
  induction steps generalizing cache with
  | nil => rfl
  | cons s steps ih =>
    have hrun : cache.run digest (s :: steps) = (cache.step digest s).run digest steps :=
      List.foldl_cons ..
    rw [hrun, ih, hits_step, answers, List.countP_append, Nat.add_assoc]

/-- The hits and misses of a run are its requests. -/
theorem hits_add_misses_run (cache : LinkCache H) (steps : List Step) :
    (cache.run digest steps).hits + (cache.run digest steps).misses =
      cache.hits + cache.misses + (asked steps).length := by
  induction steps generalizing cache with
  | nil => rfl
  | cons s steps ih =>
    have hrun : cache.run digest (s :: steps) = (cache.step digest s).run digest steps :=
      List.foldl_cons ..
    have hasked : (asked (s :: steps)).length =
        s.request?.toList.length + (asked steps).length := by
      rw [asked, List.filterMap_cons]
      cases s.request? with
      | none => exact (Nat.zero_add _).symm
      | some request => exact Nat.add_comm _ 1
    rw [hrun, ih, hits_add_misses_step, hasked, Nat.add_assoc]

/-! ## The links that are remembered -/

/-- A request that was answered was asked for in one of the steps. -/
theorem Answered.mem_asked (h : cache.Answered digest steps request) : request ∈ asked steps := by
  obtain ⟨before, after, answer, rfl, -⟩ := h
  exact List.mem_filterMap.2 ⟨_, List.mem_append_right _ List.mem_cons_self, rfl⟩

/-- A request that was answered has a key. -/
theorem Answered.exists_hasKey (h : cache.Answered digest steps request) :
    ∃ bytes, request.HasKey bytes := by
  obtain ⟨before, after, answer, -, hanswer, -⟩ := h
  exact exists_hasKey_of_link hanswer

/-- A request is answered from memory if one that agrees with it was answered and not forgotten. -/
theorem fromMemory_link_run_iff {linker : Linker}
    (hsized : ∀ other ∈ request :: asked steps, other.Sized)
    (hfree : CollisionFree digest (request :: asked steps)) :
    fromMemory (((empty linker).run digest steps).link digest request).1 ↔
      ∃ other, (empty linker : LinkCache H).Answered digest steps other ∧
        other.Agrees request := by
  obtain ⟨hrequest, hasked⟩ := List.forall_mem_cons.1 hsized
  rw [fromMemory_link_iff]
  constructor
  · rintro ⟨bytes, hmem, hkey⟩
    obtain ⟨other, hanswered, bytes', hother, hdigest⟩ := (mem_entries_run linker steps).1 hmem
    have hasked' : other ∈ request :: asked steps :=
      List.mem_cons_of_mem request hanswered.mem_asked
    obtain rfl : bytes' = bytes :=
      hfree ⟨other, hasked', hother⟩ ⟨request, List.mem_cons_self, hkey⟩ hdigest
    exact ⟨other, hanswered, (hkey.iff_agrees hrequest (hsized _ hasked')).1 hother⟩
  · rintro ⟨other, hanswered, hagrees⟩
    obtain ⟨bytes, hother⟩ := hanswered.exists_hasKey
    have hkey : request.HasKey bytes :=
      (hother.iff_agrees (hasked _ hanswered.mem_asked) hrequest).2 hagrees.symm
    exact ⟨bytes, (mem_entries_run linker steps).2 ⟨other, hanswered, bytes, hother, rfl⟩, hkey⟩

/-- The requests stand for all those with a property, of which the ones that agree count as one. -/
structure Represent (requests : List LinkRequest) (P : LinkRequest → Prop) : Prop where
  sound : ∀ request ∈ requests, P request
  apart : requests.Pairwise fun request other => ¬ request.Agrees other
  complete : ∀ other, P other → ∃ request ∈ requests, request.Agrees other

/-- There is one request for each remembered link that stand together for those that were answered
and not forgotten. -/
theorem exists_represent {linker : Linker} (hsized : ∀ other ∈ asked steps, other.Sized)
    (hfree : CollisionFree digest (asked steps)) :
    ∃ requests, Represent requests ((empty linker : LinkCache H).Answered digest steps) ∧
      requests.length = ((empty linker).run digest steps).size := by
  let entries := ((empty linker).run digest steps).entries
  have hcodes : ∀ code ∈ entries.keys, ∃ request,
      (empty linker).Answered digest steps request ∧ HasDigest digest request code :=
    fun code hcode => (mem_entries_run linker steps).1 (Std.HashMap.mem_keys.1 hcode)
  choose request hanswered bytes hkey hdigest using hcodes
  have hmem : ∀ code h, request code h ∈ asked steps := fun code h => (hanswered code h).mem_asked
  refine ⟨entries.keys.pmap request fun _ h => h, ⟨?_, ?_, ?_⟩, ?_⟩
  · intro r hr
    obtain ⟨code, hcode, rfl⟩ := List.mem_pmap.1 hr
    exact hanswered code hcode
  · -- requests that agree have the same digest, and no digest is listed twice
    refine List.Pairwise.pmap entries.nodup_keys _ fun code h code' h' hne hagrees => ?_
    have hbytes : (request code h).HasKey (bytes code' h') :=
      ((hkey code' h').iff_agrees (hsized _ (hmem code' h')) (hsized _ (hmem code h))).2 hagrees
    exact hne (by rw [← hdigest code h, ← hdigest code' h', (hkey code h).inj hbytes])
  · intro other hother
    obtain ⟨bytes', hkey'⟩ := hother.exists_hasKey
    have h : digest bytes' ∈ entries.keys := Std.HashMap.mem_keys.2
      ((mem_entries_run linker steps).2 ⟨other, hother, bytes', hkey', rfl⟩)
    have hlisted := hkey _ h
    rw [hfree ⟨_, hmem _ h, hlisted⟩ ⟨other, hother.mem_asked, hkey'⟩ (hdigest _ h)] at hlisted
    refine ⟨request _ h, List.mem_pmap.2 ⟨_, h, rfl⟩, ?_⟩
    exact (hkey'.iff_agrees (hsized _ hother.mem_asked) (hsized _ (hmem _ h))).1 hlisted
  · rw [List.length_pmap, Std.HashMap.length_keys]
    rfl

/-- What a cache remembers and counts is told by the steps since it was new. -/
structure Records (digest : List UInt8 → H) (cache : LinkCache H) (linker : Linker)
    (steps : List Step) : Prop where
  /-- A request is answered from memory exactly if one that agrees with it was answered, and not
  forgotten since. Its key may be a new one, so that the digest must tell that apart as well. -/
  memory : ∀ request : LinkRequest, request.Sized → CollisionFree digest (request :: asked steps) →
    (fromMemory (cache.link digest request).1 ↔
      ∃ other, (empty linker : LinkCache H).Answered digest steps other ∧ other.Agrees request)
  /-- The size is the number of requests that were answered and not forgotten since, where those
  that agree count as one. -/
  size : ∃ requests, Represent requests ((empty linker : LinkCache H).Answered digest steps) ∧
    requests.length = cache.size
  /-- Every request since the beginning is counted. -/
  asked : cache.hits + cache.misses = (asked steps).length
  /-- Every answer from memory since the beginning is counted. -/
  hits : cache.hits = ((empty linker : LinkCache H).answers digest steps).countP fromMemory
  /-- A request that fails is counted as a miss, and nothing else changes. -/
  failed : ∀ (request : LinkRequest) (cause : LinkError),
    (cache.link digest request).1 = .error cause →
      (cache.link digest request).2 = { cache with misses := cache.misses + 1 }
  /-- Setting the options that are set changes nothing. -/
  unchanged : cache.setOptions cache.linker.options = cache

/-- Every run of a new cache whose digest tells its keys apart is followed by what it remembers and
counts. -/
theorem records_run (digest : List UInt8 → H) (linker : Linker) (steps : List Step)
    (hsized : ∀ request ∈ asked steps, request.Sized)
    (hfree : CollisionFree digest (asked steps)) :
    ((empty linker).run digest steps).Records digest linker steps where
  memory request hrequest hapart :=
    fromMemory_link_run_iff (List.forall_mem_cons.2 ⟨hrequest, hsized⟩) hapart
  size := exists_represent hsized hfree
  asked := by
    rw [hits_add_misses_run]
    exact Nat.zero_add _
  hits := by
    rw [hits_run]
    exact Nat.zero_add _
  failed request cause h := link_of_fst_eq_error h
  unchanged := setOptions_options _

/-- The pair is answered from memory when it is asked for again, behind options that change
nothing, but the one with other scopes is not. -/
theorem records_run_tintRequest :
    let linker : Linker := ⟨.standard, .standard⟩
    let steps := [.link (tintRequest true), .setOptions linker.options]
    let cache := (empty linker : LinkCache (BitVec 256)).run tintDigest steps
    (∀ request ∈ asked steps, request.Sized) ∧ CollisionFree tintDigest (asked steps) ∧
      cache.Records tintDigest linker steps ∧
      fromMemory (cache.link tintDigest (tintRequest true)).1 ∧
      ¬ fromMemory (cache.link tintDigest (tintRequest false)).1 := by
  intro linker steps cache
  have hasked : asked steps = [tintRequest true] := rfl
  have hsized : ∀ request ∈ asked steps, request.Sized := by
    simp [hasked, tintRequest_sized]
  have hfree : CollisionFree tintDigest (asked steps) :=
    collisionFree_tintDigest.mono (by simp [hasked])
  have hrecords : cache.Records tintDigest linker steps :=
    records_run tintDigest linker steps hsized hfree
  refine ⟨hsized, hfree, hrecords, ?_, ?_⟩
  · have hlink : (linker.link (tintRequest true)).toOption.isSome = true := by decide +kernel
    have hanswer : ∃ answer,
        ((empty linker).link tintDigest (tintRequest true)).1 = .ok answer := by
      have hmap : ((empty linker).link tintDigest (tintRequest true)).1.map (·.2) =
          linker.link (tintRequest true) :=
        (faithful_empty linker).map_snd_link hsized hfree List.mem_cons_self
      rw [← hmap] at hlink
      cases hfirst : ((empty linker).link tintDigest (tintRequest true)).1 with
      | error cause =>
        rw [hfirst] at hlink
        contradiction
      | ok answer => exact ⟨answer, rfl⟩
    obtain ⟨answer, hanswer⟩ := hanswer
    have hapart : CollisionFree tintDigest (tintRequest true :: asked steps) :=
      collisionFree_tintDigest.mono (by simp [hasked])
    refine (hrecords.memory _ (tintRequest_sized true) hapart).2 ⟨tintRequest true, ?_, .refl _⟩
    refine ⟨[], [.setOptions linker.options], answer, rfl, hanswer, ?_⟩
    rw [List.forall_mem_singleton]
    exact not_not.2 rfl
  · have hapart : CollisionFree tintDigest (tintRequest false :: asked steps) :=
      collisionFree_tintDigest.mono (by simp [hasked])
    rw [hrecords.memory _ (tintRequest_sized false) hapart]
    rintro ⟨other, hanswered, hagrees⟩
    obtain rfl : other = tintRequest true := List.mem_singleton.1 hanswered.mem_asked
    -- the scopes have the same code, but only one of them provides the uniform
    have hkey : (tintRequest true).HasKey (tintKey false).bytes :=
      ((hasKey_tintRequest false).iff_agrees (tintRequest_sized false)
        (tintRequest_sized true)).2 hagrees
    have hne : (tintKey true).bytes ≠ (tintKey false).bytes := by decide +kernel
    exact hne ((hasKey_tintRequest true).inj hkey)

end LinkCache

end ShaderInterface
