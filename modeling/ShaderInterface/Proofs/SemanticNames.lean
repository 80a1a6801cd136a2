import ShaderInterface.Proofs.Numerals
import ShaderInterface.Semantic

/-!
# Names of semantics

How a semantic can be written (`Semantic.IsWritten`): a plain name, or a stem with a numeral behind
it whose value has a bound. A semantic is read from exactly the texts in which it is written
(`Semantic.ofName_eq_ok_iff`). The bounds are those of the standard locations, though these are
told from the index and not from a name: a semantic can be written under its own name exactly if
it has a location (`Semantic.isWritten_name_iff`).
-/

namespace ShaderInterface.Semantic

open Text (IsNumeral)

/-- The texts in which a semantic can be written. Zeros may lead an index, so a semantic that has
one is written in many ways. -/
inductive IsWritten : Semantic → String → Prop where
  | position : IsWritten position "POSITION"
  | normal : IsWritten normal "NORMAL"
  | tangent : IsWritten tangent "TANGENT"
  | blendWeight : IsWritten blendWeight "BLENDWEIGHT"
  | blendIndices : IsWritten blendIndices "BLENDINDICES"
  | color : IsWritten color "COLOR"
  | texCoord {digits : String} {index : Nat} (hdigits : IsNumeral digits.toList index)
      (hindex : index ≤ 7) : IsWritten (texCoord index) ("TEXCOORD" ++ digits)
  | generic {digits : String} {index : Nat} (hdigits : IsNumeral digits.toList index)
      (hindex : index ≤ 15) : IsWritten (generic index) ("ATTR" ++ digits)

/-! ## Reading a name -/

/-- An index is read from the numerals behind a stem of a value within the bound. -/
theorem indexBehind_eq_some_iff {stem text : String} {max index : Nat} :
    indexBehind stem.toList max text.toList = some index ↔
      ∃ digits : String, text = stem ++ digits ∧ IsNumeral digits.toList index ∧ index ≤ max := by
  unfold indexBehind
  split
  · next hstem =>
    obtain ⟨cs, hcs⟩ := hstem
    have htext : text = stem ++ String.ofList cs := by
      rw [← String.toList_inj, String.toList_append, String.toList_ofList, hcs]
    rw [← hcs, List.drop_left, Text.readNumeral_eq_some_iff]
    constructor
    · intro h
      refine ⟨String.ofList cs, htext, ?_⟩
      rwa [String.toList_ofList]
    · rintro ⟨digits, rfl, h⟩
      rw [String.toList_append, List.append_cancel_left_eq] at hcs
      rwa [hcs]
  · next hstem =>
    refine iff_of_false (by simp) ?_
    rintro ⟨digits, rfl, -⟩
    rw [String.toList_append] at hstem
    exact hstem (List.prefix_append ..)

/-- No index is read from a text that does not begin with the stem. -/
theorem indexBehind_eq_none {stem cs : List Char} (h : ¬ stem <+: cs) (max : Nat) :
    indexBehind stem max cs = none :=
  if_neg h

/-- A text that begins with the stem of an index is no plain name. -/
theorem find?_plain_eq_none {stem : String} (hstem : ∀ s ∈ plain, ¬ stem.toList <+: s.name.toList)
    (digits : String) : plain.find? (·.name == stem ++ digits) = none := by
  rw [List.find?_eq_none]
  intro s hs hname
  apply hstem s hs
  rw [eq_of_beq hname, String.toList_append]
  exact List.prefix_append ..

/-- A plain name is that of a semantic which is written in it. -/
theorem isWritten_name_of_mem_plain {s : Semantic} (h : s ∈ plain) : s.IsWritten s.name := by
  simp only [plain, List.mem_cons, List.not_mem_nil, or_false] at h
  obtain rfl | rfl | rfl | rfl | rfl | rfl := h
  · exact .position
  · exact .normal
  · exact .tangent
  · exact .blendWeight
  · exact .blendIndices
  · exact .color

/-- A semantic that was read is written in the text. -/
theorem isWritten_of_ofName {text : String} {s : Semantic} (h : ofName text = .ok s) :
    s.IsWritten text := by
  unfold ofName at h
  split at h
  · next t hplain =>
    obtain rfl := Except.ok.inj h
    have hname : t.name = text := by simpa using List.find?_some hplain
    exact hname ▸ isWritten_name_of_mem_plain (List.mem_of_find?_eq_some hplain)
  split at h
  · next index hindex =>
    obtain rfl := Except.ok.inj h
    obtain ⟨digits, rfl, hdigits, hle⟩ := indexBehind_eq_some_iff.1 hindex
    exact .texCoord hdigits hle
  split at h
  · next index hindex =>
    obtain rfl := Except.ok.inj h
    obtain ⟨digits, rfl, hdigits, hle⟩ := indexBehind_eq_some_iff.1 hindex
    exact .generic hdigits hle
  · contradiction

/-- A semantic is read from each text in which it is written. -/
theorem IsWritten.ofName_eq {text : String} {s : Semantic} (h : s.IsWritten text) :
    ofName text = .ok s := by
  cases h with
  | position => rfl
  | normal => rfl
  | tangent => rfl
  | blendWeight => rfl
  | blendIndices => rfl
  | color => rfl
  | @texCoord digits index hdigits hindex =>
    have hread : indexBehind "TEXCOORD".toList maxTexCoord ("TEXCOORD" ++ digits).toList
        = some index :=
      indexBehind_eq_some_iff.2 ⟨digits, rfl, hdigits, hindex⟩
    rw [ofName, find?_plain_eq_none (by decide)]
    dsimp only
    rw [hread]
  | @generic digits index hdigits hindex =>
    have hread : indexBehind "ATTR".toList maxGeneric ("ATTR" ++ digits).toList = some index :=
      indexBehind_eq_some_iff.2 ⟨digits, rfl, hdigits, hindex⟩
    -- the first letters of the two stems differ
    have hother : ¬ "TEXCOORD".toList <+: ("ATTR" ++ digits).toList := by
      rw [String.toList_append]
      intro hstem
      exact absurd (List.prefix_of_prefix_length_le (List.prefix_append ..) hstem (by decide))
        (by decide)
    rw [ofName, find?_plain_eq_none (by decide), indexBehind_eq_none hother]
    dsimp only
    rw [hread]

/-- A semantic is read from exactly the texts in which it is written. -/
theorem ofName_eq_ok_iff {text : String} {s : Semantic} :
    ofName text = .ok s ↔ s.IsWritten text :=
  ⟨isWritten_of_ofName, IsWritten.ofName_eq⟩

/-- Zeros in front of an index are dropped. -/
example : ofName "TEXCOORD0007" = .ok (texCoord 7) := by decide

/-- The error for a text that names no semantic holds the text. -/
theorem text_of_ofName_eq_error {text : String} {e : UnknownSemantic} (h : ofName text = .error e) :
    e.text = text := by
  unfold ofName at h
  split at h
  · contradiction
  split at h
  · contradiction
  split at h
  · contradiction
  · rw [← Except.error.inj h]

/-- A text is refused if no semantic is written in it. -/
theorem ofName_eq_error_iff {text : String} {e : UnknownSemantic} :
    ofName text = .error e ↔ e.text = text ∧ ∀ s : Semantic, ¬ s.IsWritten text := by
  constructor
  · intro h
    refine ⟨text_of_ofName_eq_error h, fun s hs => ?_⟩
    rw [hs.ofName_eq] at h
    contradiction
  · rintro ⟨rfl, hnone⟩
    cases hname : ofName e.text with
    | ok s => exact absurd (isWritten_of_ofName hname) (hnone s)
    | error e' =>
      have htext : e'.text = e.text := text_of_ofName_eq_error hname
      exact congrArg (Except.error ∘ UnknownSemantic.mk) htext

/-! ## The semantics with a location -/

/-- The index of a written texture coordinate has a bound. -/
theorem IsWritten.texCoord_le {text : String} {index : Nat}
    (h : (Semantic.texCoord index).IsWritten text) : index ≤ 7 := by
  cases h with
  | texCoord _ hindex => exact hindex

/-- The index of a written generic attribute has a bound. -/
theorem IsWritten.generic_le {text : String} {index : Nat}
    (h : (Semantic.generic index).IsWritten text) : index ≤ 15 := by
  cases h with
  | generic _ hindex => exact hindex

/-- A texture coordinate has a location if its index is within the bound of those that are
written. -/
theorem exists_standardLocation_texCoord_iff {index : Nat} :
    (∃ location, (texCoord index).standardLocation = .ok location) ↔ index ≤ 7 := by
  rw [standardLocation, maxTexCoord]
  split
  · next h => exact iff_of_true ⟨_, rfl⟩ h
  · next h => exact iff_of_false (by simp) h

/-- A generic attribute has a location if its index is below the number of locations, which is as
much as to say that it can be written. -/
theorem exists_standardLocation_generic_iff {index : Nat} :
    (∃ location, (generic index).standardLocation = .ok location) ↔ index ≤ 15 := by
  rw [standardLocation, locationCount]
  split
  · next h => exact iff_of_true ⟨_, rfl⟩ (Nat.le_of_lt_succ h)
  · next h => exact iff_of_false (by simp) (fun hle => h (Nat.lt_succ_of_le hle))

/-- A semantic can be written under its own name if it has a location. -/
theorem isWritten_name_iff {s : Semantic} :
    s.IsWritten s.name ↔ ∃ location, s.standardLocation = .ok location := by
  cases s with
  | position => exact iff_of_true .position ⟨0, rfl⟩
  | normal => exact iff_of_true .normal ⟨1, rfl⟩
  | tangent => exact iff_of_true .tangent ⟨13, rfl⟩
  | blendWeight => exact iff_of_true .blendWeight ⟨2, rfl⟩
  | blendIndices => exact iff_of_true .blendIndices ⟨3, rfl⟩
  | color => exact iff_of_true .color ⟨4, rfl⟩
  | texCoord index =>
    rw [exists_standardLocation_texCoord_iff]
    exact ⟨IsWritten.texCoord_le, .texCoord (Text.isNumeral_toString index)⟩
  | generic index =>
    rw [exists_standardLocation_generic_iff]
    exact ⟨IsWritten.generic_le, .generic (Text.isNumeral_toString index)⟩

/-- A text is read as the semantic that is written in it, and any other text is refused with an
error that holds it. A semantic is read back from its own name exactly if it has a standard
location. -/
theorem ofName_reads_written :
    (∀ (text : String) (s : Semantic), ofName text = .ok s ↔ s.IsWritten text) ∧
      (∀ (text : String) (e : UnknownSemantic),
        ofName text = .error e ↔ e.text = text ∧ ∀ s : Semantic, ¬ s.IsWritten text) ∧
      ∀ s : Semantic, ofName s.name = .ok s ↔ ∃ location, s.standardLocation = .ok location := by
  refine ⟨fun _ _ => ofName_eq_ok_iff, fun _ _ => ofName_eq_error_iff, fun s => ?_⟩
  rw [ofName_eq_ok_iff, isWritten_name_iff]

end ShaderInterface.Semantic
