import ShaderInterface.Proofs.Homes
import ShaderInterface.Proofs.Packing
import ShaderInterface.Proofs.Spelling
import ShaderInterface.Proofs.Std140
import ShaderInterface.Proofs.WrittenDeclarators

/-!
# Words of 32 bits are enough

A host counts in words of 32 bits. With the standard tables no number that comes up in a link
leaves them (`Linker.fitsWords_of_sized`), whether the link succeeds or stops at some uniform: a
source is limited in bytes, each declaration takes at least one of them, and a uniform takes at most
64 bytes of a buffer with all that is left free in front of it, or else two slots.
-/

namespace ShaderInterface

open Source (Declaration Stripped maxSourceBytes)

/-! ## What a source is limited to -/

namespace Source

/-- A lexeme opens at most as many parentheses as it has characters. -/
theorem Lexeme.depthBehind_le (l : Lexeme) (depth : Nat) :
    l.depthBehind depth ≤ depth + l.text.length := by
  cases l with
  | openParen => exact Nat.le_refl _
  | closeParen => exact Nat.le_trans (Nat.sub_le _ _) (Nat.le_add_right _ _)
  | _ => exact Nat.le_add_right _ _

/-- Lexemes open at most as many parentheses as they have characters. -/
theorem openParens_le_length (before : List Lexeme) :
    openParens before ≤ (before.flatMap Lexeme.text).length := by
  induction before using List.reverseRecOn with
  | nil => exact Nat.le_refl 0
  | append_singleton before l ih =>
    rw [openParens_concat, List.flatMap_append, List.flatMap_singleton, List.length_append]
    have hstep := l.depthBehind_le (openParens before)
    omega

/-- Wherever the reading of a source has come, at most as many parentheses are open as the source
has bytes. -/
theorem parenDepth_le_utf8ByteSize {source : String} {before behind : List Lexeme}
    (h : lexemes .start source.toList = before ++ behind) :
    (Context.behind before).parenDepth ≤ source.utf8ByteSize := by
  have htext := flatMap_text_lexemes .start source.toList
  rw [h, List.flatMap_append] at htext
  calc (Context.behind before).parenDepth
      = openParens before := Context.parenDepth_behind before
    _ ≤ (before.flatMap Lexeme.text).length := openParens_le_length before
    _ ≤ source.toList.length := by
      rw [← htext, List.length_append]
      exact Nat.le_add_right _ _
    _ ≤ byteCount source.toList := length_le_byteCount _
    _ = source.utf8ByteSize := byteCount_toList source

/-- A source has at most as many payloads of a keyword as declarations. -/
theorem Declaration.length_payloads_le (ds : List Declaration) (keyword : Keyword) :
    (Declaration.payloads ds keyword).length ≤ ds.length := by
  rw [Declaration.payloads, List.length_map]
  exact List.length_filter_le _ ds

/-- A stripped source has at most as many payloads of a keyword as bytes, and those are limited. -/
theorem Stripped.length_payloads_le {stage : Stage} {source : String} {stripped : Stripped}
    (h : Stripped.ofSource stage source = .ok stripped) (keyword : Keyword) :
    (stripped.payloads keyword).length ≤ maxSourceBytes := by
  obtain ⟨hsize, ds, hds, hpayloads⟩ := exists_ofSource_eq_ok_iff.1 ⟨stripped, h, rfl⟩
  rw [← hpayloads]
  calc (Declaration.payloads ds keyword).length
      ≤ ds.length := Declaration.length_payloads_le ds keyword
    _ ≤ source.utf8ByteSize := Declaration.length_le_of_ofSource hds
    _ ≤ maxSourceBytes := hsize

end Source

namespace Uniform

/-- Dropping repeated uniforms makes no more of them. -/
theorem length_distinct_le (us : List Uniform) : (distinct us).length ≤ us.length := by
  induction us using distinct_induction with
  | nil => exact Nat.le_refl 0
  | cons u us ih =>
    rw [distinct_cons, List.length_cons, List.length_cons]
    exact Nat.succ_le_succ (Nat.le_trans ih (List.length_filter_le _ us))

/-- At most one uniform is made of each line. -/
theorem length_le_of_merge {lines : List (Stage × String)} {us : List Uniform}
    (h : merge lines = .ok us) : us.length ≤ lines.length := by
  obtain ⟨all, hall, -, rfl⟩ := merge_eq_ok_iff.1 h
  rw [(Outcome.mapM_eq_ok_iff.1 hall).length_eq]
  exact length_distinct_le all

end Uniform

/-- Two sources declare at most as many uniforms as they may have bytes. -/
theorem Linker.length_le_of_uniformsOf {vertex fragment : String} {us : List Uniform}
    (h : uniformsOf vertex fragment = .ok us) : us.length ≤ 2 * maxSourceBytes := by
  rw [uniformsOf, Outcome.bind_eq_ok_iff] at h
  obtain ⟨vs, hvs, h⟩ := h
  obtain ⟨fs, hfs, h⟩ := Outcome.bind_eq_ok_iff.1 h
  have hlines : us.length ≤ (uniformLines vs.payloads fs.payloads).length :=
    Uniform.length_le_of_merge h
  rw [uniformLines, List.length_append, List.length_map, List.length_map] at hlines
  have hvertex := Stripped.length_payloads_le hvs .uniform
  have hfragment := Stripped.length_payloads_le hfs .uniform
  omega

/-! ## Buffers -/

namespace HostTables

/-- The size that is found for a type is an entry of the tables. -/
theorem mem_of_elementCount?_eq_some {tables : HostTables} {typeName : String} {count : Nat}
    (h : tables.elementCount? typeName = some count) :
    (typeName, count) ∈ tables.elementCounts := by
  obtain ⟨before, behind, hentries, -⟩ := List.lookup_eq_some_iff.1 h
  rw [hentries]
  exact List.mem_append_right before List.mem_cons_self

/-- No type of the standard tables has more elements than a matrix of four columns. -/
theorem elementCount_le_of_standard {typeName : String} {count : Nat}
    (h : standard.elementCount? typeName = some count) : count ≤ 16 := by
  have hall : ∀ entry ∈ standard.elementCounts, entry.2 ≤ 16 := by decide
  exact hall _ (mem_of_elementCount?_eq_some h)

end HostTables

namespace Std140

/-- What uniforms become by the standard tables is what members of a block are. -/
theorem exists_matches_of_mapM {us : List Uniform} {ms : List Member}
    (h : us.mapM (Member.ofUniform .standard) = .ok ms) :
    ∃ bs, List.Forall₂ BlockMember.Matches bs ms := by
  have hmembers : ∀ u ∈ us, ∃ m, Member.ofUniform .standard u = .ok m :=
    Outcome.exists_mapM_eq_ok_iff.1 ⟨ms, h⟩
  have htypes : ∀ u ∈ us, u.typeName ∈ HostTables.standard.elementCounts.map (·.1) := by
    intro u hu
    obtain ⟨-, count, hcount, -⟩ := Member.exists_ofUniform_eq_ok_iff.1 (hmembers u hu)
    exact List.mem_map.2 ⟨_, HostTables.mem_of_elementCount?_eq_some hcount, rfl⟩
  have hsingle : ∀ u ∈ us, u.arraySize ≤ 1 := fun u hu =>
    (Member.exists_ofUniform_eq_ok_iff.1 (hmembers u hu)).1
  obtain ⟨ms', bs, hms', hmatches⟩ := exists_members htypes hsingle
  obtain rfl := Except.ok.inj (h.symm.trans hms')
  exact ⟨bs, hmatches⟩

end Std140

/-- The numbers of a buffer are words: the sizes of the elements and of the fields, the places where
fields begin and end, and the size of the whole. -/
structure BufferLayout.FitsWords (layout : BufferLayout) : Prop where
  elements : ∀ f ∈ layout.fields, f.elementCount * Member.elementBytes < UInt32.size
  byteSize : ∀ f ∈ layout.fields, f.byteSize < UInt32.size
  byteOffset : ∀ f ∈ layout.fields, f.byteOffset < UInt32.size
  stop : ∀ f ∈ layout.fields, f.stop < UInt32.size
  totalBytes : layout.totalBytes < UInt32.size

namespace BufferLayout

section

variable {ms : List Member} (hms : ∀ m ∈ ms, m.elementCount ≠ 0)

include hms

/-- Members end behind the byte behind which they are placed. -/
theorem le_endFrom (start : Nat) : start ≤ endFrom start ms := by
  induction ms generalizing start with
  | nil => exact Nat.le_refl start
  | cons m ms ih =>
    rw [List.forall_mem_cons] at hms
    rw [endFrom_cons]
    calc start
        ≤ roundUp start m.alignment := le_roundUp (Member.alignment_pos hms.1) start
      _ ≤ (Field.mk m (roundUp start m.alignment)).stop := Nat.le_add_right _ _
      _ ≤ _ := ih hms.2 _

/-- Each field ends where all members end, or in front of that. -/
theorem stop_le_endFrom {start : Nat} {f : Field} (hf : f ∈ fieldsFrom start ms) :
    f.stop ≤ endFrom start ms := by
  induction ms generalizing start with
  | nil => contradiction
  | cons m ms ih =>
    rw [List.forall_mem_cons] at hms
    rw [endFrom_cons]
    rw [fieldsFrom, List.mem_cons] at hf
    rcases hf with rfl | hf
    · exact le_endFrom hms.2 _
    · exact ih hms.2 hf

/-- The numbers of a buffer are words if its size is one. -/
theorem fitsWords_of_totalBytes_lt (htotal : (ofMembers ms).totalBytes < UInt32.size) :
    (ofMembers ms).FitsWords := by
  have hstop : ∀ f ∈ (ofMembers ms).fields, f.byteOffset + f.byteSize < UInt32.size := by
    intro f hf
    rw [fields_ofMembers] at hf
    rw [totalBytes_ofMembers] at htotal
    exact Nat.lt_of_le_of_lt (stop_le_endFrom hms hf)
      (Nat.lt_of_le_of_lt (le_roundUp (Nat.succ_pos 15) _) htotal)
  constructor
  case elements =>
    intro f hf
    have hsize := hstop f hf
    have hle : f.elementCount * Member.elementBytes ≤ f.byteSize := by
      unfold Member.byteSize
      split
      · exact Nat.le_refl _
      · exact le_roundUp (Nat.succ_pos 15) _
    omega
  case byteSize => exact fun f hf => Nat.lt_of_le_of_lt (Nat.le_add_left _ _) (hstop f hf)
  case byteOffset => exact fun f hf => Nat.lt_of_le_of_lt (Nat.le_add_right _ _) (hstop f hf)
  case stop => exact hstop
  case totalBytes => exact htotal

end

/-- The numbers of a buffer with a place for each of the uniforms of two sources are words. -/
theorem fitsWords_ofMembers {us : List Uniform} {ms : List Member}
    (h : us.mapM (Member.ofUniform .standard) = .ok ms) (hus : us.length ≤ 2 * maxSourceBytes) :
    (ofMembers ms).FitsWords := by
  obtain ⟨bs, hmatches⟩ := Std140.exists_matches_of_mapM h
  have hbytes : 64 * ms.length < UInt32.size := by
    have hlength := (Outcome.mapM_eq_ok_iff.1 h).length_eq
    have hlimit : 64 * (2 * maxSourceBytes) < UInt32.size := by decide
    omega
  have hend := Std140.endFrom_le hmatches (Nat.zero_le (64 * 0))
  rw [Nat.zero_add] at hend
  refine fitsWords_of_totalBytes_lt (elementCount_ne_zero_of_mapM h) ?_
  rw [totalBytes_ofMembers]
  refine Nat.lt_of_le_of_lt ((roundUp_le_iff (Nat.succ_pos 15) ?_ _).2 hend) hbytes
  exact Nat.dvd_mul_right_of_dvd ⟨4, rfl⟩ ms.length

end BufferLayout

/-! ## Textures -/

/-- The first texture of a group is bound to the first slot or to the one behind a buffer. -/
theorem BindingTable.firstTextureSlot_le (table : BindingTable) :
    table.firstTextureSlot ≤ bufferSlot + 1 := by
  unfold firstTextureSlot
  split
  · exact Nat.le_refl _
  · exact Nat.le_succ _

/-- Textures that are bound from the slot `first` on take no slot behind the two of the last one. -/
theorem Texture.BoundFrom.samplerSlot_lt {tables : HostTables} {sampling : HighpSampling}
    {first : Nat} {us : List Uniform} {ts : List Texture}
    (h : BoundFrom tables sampling first us ts) {t : Texture} (ht : t ∈ ts) :
    t.textureSlot < t.samplerSlot ∧ t.samplerSlot < first + 2 * ts.length := by
  induction h with
  | nil first => contradiction
  | @cons first u us t' ts head tail ih =>
    rw [List.length_cons]
    rcases List.mem_cons.1 ht with rfl | ht
    · obtain ⟨-, dimension, -, rfl⟩ := ofUniform_eq_ok_iff.1 head
      dsimp only
      omega
    · have hbehind := ih ht
      omega

/-- A texture is bound for each texture uniform. -/
theorem Texture.BoundFrom.length_eq {tables : HostTables} {sampling : HighpSampling}
    {first : Nat} {us : List Uniform} {ts : List Texture}
    (h : BoundFrom tables sampling first us ts) : ts.length = us.length := by
  have hlength := congrArg List.length h.map_eq
  rwa [List.length_map, List.length_map] at hlength

/-- The numbers of textures that are bound from the slot `first` on are words: their slots, and the
slot behind the last one. -/
structure Texture.FitWords (first : Nat) (ts : List Texture) : Prop where
  textureSlot : ∀ t ∈ ts, t.textureSlot < UInt32.size
  samplerSlot : ∀ t ∈ ts, t.samplerSlot < UInt32.size
  next : first + 2 * ts.length < UInt32.size

/-- The numbers of textures for each of the uniforms of two sources are words. -/
theorem Texture.fitWords_of_assign {tables : HostTables} {sampling : HighpSampling} {first : Nat}
    (hfirst : first ≤ BindingTable.bufferSlot + 1) {us : List Uniform} {ts : List Texture}
    (h : assign tables sampling first us = .ok ts) (hus : us.length ≤ 2 * maxSourceBytes) :
    FitWords first ts := by
  have hbound := assign_eq_ok_iff.1 h
  have hnext : first + 2 * ts.length < UInt32.size := by
    have hlength := hbound.length_eq
    have hlimit : BindingTable.bufferSlot + 1 + 2 * (2 * maxSourceBytes) < UInt32.size := by decide
    omega
  constructor
  case next => exact hnext
  case samplerSlot => exact fun t ht => Nat.lt_trans (hbound.samplerSlot_lt ht).2 hnext
  case textureSlot =>
    intro t ht
    have hslot := hbound.samplerSlot_lt ht
    omega

/-! ## Links -/

/-- The last character of a type's name tells at most nine components. -/
theorem Attribute.componentCount_le (typeName : String) : componentCount typeName ≤ 9 := by
  unfold componentCount
  split
  · next c hc =>
    split
    · next hdigit =>
      have hle : c.toNat ≤ '9'.toNat := by
        simp only [Char.isDigit, Bool.and_eq_true, decide_eq_true_eq] at hdigit
        exact UInt32.le_iff_toNat_le.1 hdigit.2
      have hzero : '0'.toNat = 48 := rfl
      have hnine : '9'.toNat = 57 := rfl
      omega
    · decide
  · decide

/-- All numbers that come up in a link by the standard tables are words. Sources, buffers and
textures may be left where the link stops, so what is said of them is said of all first parts. -/
structure LinkRequest.FitsWords (request : LinkRequest) (options : Options) : Prop where
  /-- The parentheses that are open, wherever the reading of a source has come. -/
  parens : ∀ source ∈ [request.vertex, request.fragment], ∀ before behind,
    Source.lexemes .start source.toList = before ++ behind →
      (Source.Context.behind before).parenDepth < UInt32.size
  /-- The numbers of varyings and outputs, and the number behind the last one. -/
  lines : ∀ source ∈ [request.vertex, request.fragment], ∀ stage stripped,
    Stripped.ofSource stage source = .ok stripped → ∀ keyword,
      (stripped.payloads keyword).length + 1 < UInt32.size
  location : ∀ s location, HostTables.standard.location s = .ok location → location < UInt32.size
  components : ∀ typeName, Attribute.componentCount typeName < UInt32.size
  arraySize : ∀ text d, Declarator.parse text = .ok d → d.arraySize < UInt32.size
  /-- The bytes of a type's elements, also for a uniform at which the link stops. -/
  elements : ∀ typeName count, HostTables.standard.elementCount? typeName = some count →
    count * Member.elementBytes < UInt32.size
  /-- The buffer for the values of the mesh, however many of them have been placed. -/
  buffer : ∀ us, Linker.uniformsOf request.vertex request.fragment = .ok us →
    ∀ front, front <+: Linker.meshValues request.scopes us →
      ∀ ms, front.mapM (Member.ofUniform .standard) = .ok ms → (BufferLayout.ofMembers ms).FitsWords
  /-- The textures of the mesh behind the buffer, if there is one, however many of them have been
  bound. -/
  textures : ∀ us, Linker.uniformsOf request.vertex request.fragment = .ok us →
    ∀ front, front <+: Linker.meshTextures request.scopes us →
      ∀ first ≤ BindingTable.bufferSlot + 1, ∀ ts,
        Texture.assign .standard options.sampling first front = .ok ts → Texture.FitWords first ts

namespace Linker

variable {request : LinkRequest}

/-- The numbers that come up with sources that are not too large are words. -/
theorem fitsWords_of_utf8ByteSize_le (options : Options)
    (hvertex : request.vertex.utf8ByteSize ≤ maxSourceBytes)
    (hfragment : request.fragment.utf8ByteSize ≤ maxSourceBytes) :
    request.FitsWords options := by
  have hsize : ∀ source ∈ [request.vertex, request.fragment],
      source.utf8ByteSize ≤ maxSourceBytes := by
    simp [hvertex, hfragment]
  have hlimit : maxSourceBytes + 1 < UInt32.size := by decide
  -- a part of the uniforms has no more of them than the sources declare
  have hfront : ∀ us, uniformsOf request.vertex request.fragment = .ok us → ∀ p front,
      front <+: us.filter p → front.length ≤ 2 * maxSourceBytes := by
    intro us hus p front hprefix
    have hus := length_le_of_uniformsOf hus
    have hfilter := List.length_filter_le p us
    have hfront := hprefix.length_le
    omega
  constructor
  case parens =>
    intro source hsource before behind hlexemes
    have hdepth := Source.parenDepth_le_utf8ByteSize hlexemes
    have hbytes := hsize source hsource
    omega
  case lines =>
    intro source _ stage stripped hstripped keyword
    have hpayloads := Stripped.length_payloads_le hstripped keyword
    omega
  case location =>
    intro s location hlocation
    have hlt : location < Semantic.locationCount := Semantic.standardLocation_lt hlocation
    exact Nat.lt_trans hlt (by decide)
  case components =>
    exact fun typeName => Nat.lt_of_le_of_lt (Attribute.componentCount_le typeName) (by decide)
  case arraySize =>
    intro text d hd
    obtain ⟨size, hsize, -⟩ := (Declarator.parse_eq_ok_iff_isWritten.1 hd).form
    exact Nat.lt_of_le_of_lt hsize.le (by decide)
  case elements =>
    intro typeName count hcount
    have hle := HostTables.elementCount_le_of_standard hcount
    exact Nat.lt_of_le_of_lt (Nat.mul_le_mul_right Member.elementBytes hle) (by decide)
  case buffer =>
    intro us hus front hprefix ms hms
    exact BufferLayout.fitsWords_ofMembers hms (hfront us hus _ front hprefix)
  case textures =>
    intro us hus front hprefix first hfirst ts hts
    exact Texture.fitWords_of_assign hfirst hts (hfront us hus _ front hprefix)

/-- With the standard tables, all numbers that come up in the link of sources that are not too large
are words, and among them those of the linked pair. -/
theorem fitsWords_of_sized (options : Options)
    (hvertex : request.vertex.utf8ByteSize ≤ maxSourceBytes)
    (hfragment : request.fragment.utf8ByteSize ≤ maxSourceBytes) :
    request.FitsWords options ∧
    ∀ pair, link ⟨.standard, options⟩ request = .ok pair →
      (∀ layout, pair.assignment.mesh.layout = some layout → layout.FitsWords) ∧
      Texture.FitWords pair.assignment.mesh.bindings.firstTextureSlot
        pair.assignment.mesh.bindings.textures := by
  have hwords := fitsWords_of_utf8ByteSize_le options hvertex hfragment
  refine ⟨hwords, fun pair hlink => ?_⟩
  obtain ⟨-, vs, hvs, fs, hfs, a, ha, rfl⟩ := link_eq_ok_iff.1 hlink
  obtain ⟨us, hus, hmesh⟩ := uniforms_and_mesh_of_assign ha
  rw [← uniformsOf_eq hvs hfs] at hus
  rw [ResourceGroup.ofUniforms, filter_value_unprovided, filter_texture_unprovided,
    ResourceGroup.ofParts] at hmesh
  obtain ⟨layout, hlayout, hmesh⟩ := Outcome.bind_eq_ok_iff.1 hmesh
  obtain ⟨ts, hts, hmesh⟩ := Outcome.bind_eq_ok_iff.1 hmesh
  obtain ⟨ms, hms, rfl⟩ := BufferLayout.ofUniforms_eq_ok_iff.1 hlayout
  have htextures := hwords.textures us hus _ (List.prefix_refl _) _
    (BindingTable.firstTextureSlot_le _) ts hts
  have hbuffer := hwords.buffer us hus _ (List.prefix_refl _) ms hms
  dsimp only [pairOf]
  rw [← Except.ok.inj hmesh]
  refine ⟨fun layout hlayout => ?_, htextures⟩
  unfold BufferLayout.ofMembers? at hlayout
  split at hlayout
  · contradiction
  · exact Option.some.inj hlayout ▸ hbuffer

/-- A pair with open parentheses, a matrix behind a scalar and a texture. -/
def nestedRequest : LinkRequest where
  vertex := "#define F(x) x\nuniform float time;\nuniform mat4 view;\nvoid main() { F((time)); }\n"
  fragment := "uniform sampler2D glow;\nout vec4 color;\nvoid main() {}\n"
  semantics := ∅
  formats := fun _ => none
  scopes := []

/-- The numbers of the pair are small. -/
theorem fitsWords_of_sized_nestedRequest :
    nestedRequest.vertex.utf8ByteSize ≤ maxSourceBytes ∧
      nestedRequest.fragment.utf8ByteSize ≤ maxSourceBytes ∧
      nestedRequest.FitsWords .standard ∧
      ∃ pair, link ⟨.standard, .standard⟩ nestedRequest = .ok pair ∧
        pair.assignment.mesh.fields.map (fun f => (f.byteOffset, f.stop)) = [(0, 4), (16, 80)] ∧
        pair.assignment.mesh.bindings.textures.map (·.samplerSlot) = [2] ∧
        (∀ layout, pair.assignment.mesh.layout = some layout → layout.FitsWords) ∧
        Texture.FitWords pair.assignment.mesh.bindings.firstTextureSlot
          pair.assignment.mesh.bindings.textures := by
  have hvertex : nestedRequest.vertex.utf8ByteSize ≤ maxSourceBytes := by decide +kernel
  have hfragment : nestedRequest.fragment.utf8ByteSize ≤ maxSourceBytes := by decide +kernel
  have hplaces : (link ⟨.standard, .standard⟩ nestedRequest).map (fun pair =>
      (pair.assignment.mesh.fields.map (fun f => (f.byteOffset, f.stop)),
        pair.assignment.mesh.bindings.textures.map (·.samplerSlot))) =
          .ok ([(0, 4), (16, 80)], [2]) := by
    decide +kernel
  obtain ⟨pair, hlink, hplaces⟩ := Outcome.map_eq_ok_iff.1 hplaces
  obtain ⟨hfields, htextures⟩ := Prod.mk.inj hplaces
  obtain ⟨hwords, hpair⟩ := fitsWords_of_sized .standard hvertex hfragment
  exact ⟨hvertex, hfragment, hwords, pair, hlink, hfields, htextures, hpair pair hlink⟩

end Linker

end ShaderInterface
