import ShaderInterface.Proofs.Rewriting
import ShaderInterface.Proofs.Spelling

/-!
# Scanning loses nothing

Taking the declarations out of a source can be undone. What is left of the source has the
placeholder on a line of its own (`Stripped.slice_placeholder`); without this line, and with the
bytes of the declarations put back at their places, it is the source again
(`Stripped.foldl_insertSpan`). `Declaration.nothing_lost_of_ofSource` puts this together with how the
declarations are spelled.
-/

namespace ShaderInterface.Source

open Code (utf8)

/-- The line of the placeholder. -/
def placeholderBytes : List UInt8 :=
  utf8 (placeholder ++ "\n")

/-- Puts the bytes of a declaration of the source back at their place. -/
def insertSpan (source : String) (bytes : List UInt8) (d : Declaration) : List UInt8 :=
  bytes.take d.start ++ slice source d.start d.stop ++ bytes.drop d.start

/-- Bytes are put back between those that stand in front of their place and those behind. -/
theorem insertSpan_ofCut {source : String} {before behind : List Char} {cut : Cut}
    (h : source.toList = before ++ (cut.text ++ behind)) (left : List Char) :
    insertSpan source (utf8 (String.ofList (before ++ left)))
        (.ofCut (byteCount before) cut) = utf8 (String.ofList (before ++ cut.text ++ left)) := by
  have hlength : (utf8 (String.ofList before)).length = byteCount before := Code.length_utf8 _
  have hslice : slice source (byteCount before) (byteCount before + byteCount cut.text) =
      utf8 (String.ofList cut.text) := slice_eq h
  simp only [insertSpan, Declaration.ofCut]
  rw [hslice, utf8_ofList_append, List.take_left' hlength, List.drop_left' hlength,
    utf8_ofList_append, utf8_ofList_append]

/-- Behind text that is complete, putting back all cuts gives the source. -/
theorem foldl_insertSpan_placeFrom {source : String} {before gap : List Char}
    {cuts : List (Cut × List Char)}
    (h : source.toList = before ++ (gap ++ cuts.flatMap fun (cut, gap) => cut.text ++ gap)) :
    (Declaration.placeFrom (byteCount before + byteCount gap) cuts).foldl (insertSpan source)
        (utf8 (String.ofList (before ++ (gap ++ cuts.flatMap (·.2))))) = utf8 source := by
  induction cuts generalizing before gap with
  | nil =>
    rw [List.flatMap_nil] at h ⊢
    rw [← h, String.ofList_toList]
    rfl
  | cons next cuts ih =>
    obtain ⟨cut, gap'⟩ := next
    rw [List.flatMap_cons] at h
    -- with the first cut put back, the text is complete up to the end of that cut
    have hfirst : source.toList = (before ++ gap) ++
        (cut.text ++ (gap' ++ cuts.flatMap fun (cut, gap) => cut.text ++ gap)) := by
      simpa only [List.append_assoc] using h
    have hrest : source.toList = (before ++ gap ++ cut.text) ++
        (gap' ++ cuts.flatMap fun (cut, gap) => cut.text ++ gap) := by
      simpa only [List.append_assoc] using h
    have hinsert := insertSpan_ofCut hfirst (gap' ++ cuts.flatMap (·.2))
    have hih := ih hrest
    rw [byteCount_append, byteCount_append] at hih
    rw [byteCount_append] at hinsert
    rw [Declaration.placeFrom, List.foldl_cons, List.flatMap_cons, ← List.append_assoc before,
      hinsert]
    exact hih

namespace Stripped

/-- What is left of a source without the line of the placeholder. -/
def unmarked (stripped : Stripped) : List UInt8 :=
  (utf8 stripped.text).take stripped.placeholderOffset ++
    (utf8 stripped.text).drop (stripped.placeholderOffset + placeholderBytes.length)

/-- Behind the placeholder stands the end of its line. -/
theorem exists_tail_ofOutline (outline : Outline) :
    ∃ rest, (ofOutline outline).tail = String.ofList ('\n' :: rest) := by
  unfold ofOutline ofBare
  split
  · split
    · exact ⟨_, rfl⟩
    · exact ⟨_, rfl⟩
  · exact ⟨_, rfl⟩

variable {stripped : Stripped} {rest : List Char}

/-- The line of the placeholder stands behind the head. -/
theorem utf8_text_of_tail (h : stripped.tail = String.ofList ('\n' :: rest)) :
    utf8 stripped.text = utf8 stripped.head ++ placeholderBytes ++ utf8 (String.ofList rest) := by
  have htail : utf8 stripped.tail = utf8 "\n" ++ utf8 (String.ofList rest) := by
    rw [h]
    exact utf8_ofList_append ['\n'] rest
  rw [text, inject, Code.utf8_append, Code.utf8_append, htail, placeholderBytes, Code.utf8_append]
  simp only [List.append_assoc]

/-- The head takes the bytes in front of the placeholder. -/
theorem length_utf8_head (stripped : Stripped) :
    (utf8 stripped.head).length = stripped.placeholderOffset :=
  Code.length_utf8 _

/-- The line of the placeholder is found where the offset says. -/
theorem slice_placeholder_of_tail (h : stripped.tail = String.ofList ('\n' :: rest)) :
    slice stripped.text stripped.placeholderOffset
        (stripped.placeholderOffset + placeholderBytes.length) = placeholderBytes := by
  have hlength : (utf8 stripped.head ++ placeholderBytes).length =
      stripped.placeholderOffset + placeholderBytes.length := by
    rw [List.length_append, length_utf8_head]
  rw [slice, utf8_text_of_tail h, List.take_left' hlength, List.drop_left' (length_utf8_head _)]

/-- Without the line of the placeholder the text behind it stands directly behind the head. -/
theorem unmarked_of_tail (h : stripped.tail = String.ofList ('\n' :: rest)) :
    stripped.unmarked = utf8 stripped.head ++ utf8 (String.ofList rest) := by
  have hlength : (utf8 stripped.head ++ placeholderBytes).length =
      stripped.placeholderOffset + placeholderBytes.length := by
    rw [List.length_append, length_utf8_head]
  rw [unmarked, utf8_text_of_tail h, List.drop_left' hlength, List.append_assoc,
    List.take_left' (length_utf8_head _)]

/-- With its declarations put back, what is left of a source that has some is the source. -/
theorem foldl_insertSpan {stage : Stage} {source : String} {outline : Outline}
    (h : Outline.ofSource stage source = .ok outline)
    (hne : Declaration.ofOutline outline ≠ []) :
    (Declaration.ofOutline outline).foldl (insertSpan source) (ofOutline outline).unmarked =
      utf8 source := by
  rw [Declaration.ofOutline_eq] at hne ⊢
  have hcuts : outline.cuts.isEmpty = false :=
    List.isEmpty_eq_false_iff.2 fun hnil => hne (Declaration.placeFrom_eq_nil_iff.2 hnil)
  have htail : (ofOutline outline).tail =
      String.ofList ('\n' :: outline.cuts.flatMap (·.2)) := by
    rw [ofOutline, hcuts]
    rfl
  have hhead : (ofOutline outline).head = String.ofList outline.lead := by
    rw [ofOutline, hcuts]
    rfl
  have hrestored := @foldl_insertSpan_placeFrom source [] outline.lead outline.cuts
    (Outline.text_of_ofSource h).symm
  rw [byteCount_nil, Nat.zero_add, List.nil_append, utf8_ofList_append] at hrestored
  rw [unmarked_of_tail htail, hhead]
  exact hrestored

/-- What is taken out of a source and what is left of it are all of the source. -/
structure KeepsAll (source : String) (ds : List Declaration) (stripped : Stripped) : Prop where
  /-- Nothing but the declarations is taken out, and in their order. -/
  declarations_eq : stripped.declarations = ds.map fun d => (d.keyword, d.payload)
  payloads_eq : ∀ keyword,
    stripped.payloads keyword = (ds.filter (·.keyword == keyword)).map (·.payload)
  slice_placeholder : slice stripped.text stripped.placeholderOffset
    (stripped.placeholderOffset + placeholderBytes.length) = placeholderBytes
  foldl_insertSpan : ds ≠ [] → ds.foldl (insertSpan source) stripped.unmarked = utf8 source

/-- A source that is stripped is kept. -/
theorem keepsAll_of_ofSource {stage : Stage} {source : String} {ds : List Declaration}
    (hds : Declaration.ofSource stage source = .ok ds) {stripped : Stripped}
    (h : ofSource stage source = .ok stripped) : KeepsAll source ds stripped := by
  obtain ⟨outline, houtline, rfl⟩ := Declaration.ofSource_eq_ok_iff.1 hds
  rw [ofSource] at h
  split at h
  · contradiction
  · rw [houtline] at h
    obtain rfl : ofOutline outline = stripped := Except.ok.inj h
    obtain ⟨rest, htail⟩ := exists_tail_ofOutline outline
    exact {
      declarations_eq := declarations_ofOutline outline
      payloads_eq := congrFun (payloads_ofOutline outline)
      slice_placeholder := slice_placeholder_of_tail htail
      foldl_insertSpan := foldl_insertSpan houtline }

end Stripped

/-- Nothing of a source is lost when it is scanned. Each declaration is spelled at its place, the
places are in order and apart, and taking the declarations out can be undone. -/
theorem Declaration.nothing_lost_of_ofSource {stage : Stage} {source : String}
    {ds : List Declaration} (h : ofSource stage source = .ok ds) :
    (∀ d ∈ ds, ∃ s : Spelling, s.text = source.toList ∧ s.declaration = d ∧
      slice source d.start d.stop = utf8 (String.ofList s.span)) ∧
    (∀ d ∈ ds, d.start < d.stop ∧ d.stop ≤ source.utf8ByteSize) ∧
    ds.Pairwise (fun d e => d.stop ≤ e.start) ∧
    ∀ stripped, Stripped.ofSource stage source = .ok stripped →
      Stripped.KeepsAll source ds stripped := by
  refine ⟨fun d hd => ?_, fun d hd => start_lt_stop h hd, pairwise_stop_le h, fun stripped hs => ?_⟩
  · obtain ⟨s, htext, rfl⟩ := exists_spelling h hd
    exact ⟨s, htext, rfl, s.slice_declaration htext⟩
  · exact Stripped.keepsAll_of_ofSource h hs

/-- Three declarations, two of them on one line with blanks between them, with a text that is not
ASCII behind them. -/
def crowdedLine : String :=
  "  varying vec2 uv;; \tuniform\nvec4 tint ; // é\nout vec4 color;"

/-- The declarations of the line meet, and are put back. -/
theorem nothing_lost_of_ofSource_crowdedLine :
    ∃ ds stripped, Declaration.ofSource .fragment crowdedLine = .ok ds ∧
      Stripped.ofSource .fragment crowdedLine = .ok stripped ∧
      ds.map (fun d => (d.payload, d.start, d.stop)) =
        [("vec2 uv", 0, 19), ("vec4 tint", 19, 40), ("vec4 color", 47, 62)] ∧
      stripped.text = "@@@\n // é\n" ∧
      (∀ d ∈ ds, ∃ s : Spelling, s.text = crowdedLine.toList ∧ s.declaration = d ∧
        slice crowdedLine d.start d.stop = utf8 (String.ofList s.span)) ∧
      (∀ d ∈ ds, d.start < d.stop ∧ d.stop ≤ crowdedLine.utf8ByteSize) ∧
      ds.Pairwise (fun d e => d.stop ≤ e.start) ∧
      Stripped.KeepsAll crowdedLine ds stripped := by
  have hds : (Declaration.ofSource .fragment crowdedLine).map
      (fun ds => ds.map fun d => (d.payload, d.start, d.stop)) =
        .ok [("vec2 uv", 0, 19), ("vec4 tint", 19, 40), ("vec4 color", 47, 62)] := by
    decide +kernel
  have hstripped : (Stripped.ofSource .fragment crowdedLine).map (·.text) =
      .ok "@@@\n // é\n" := by
    decide +kernel
  obtain ⟨ds, hds, hplaces⟩ := Outcome.map_eq_ok_iff.1 hds
  obtain ⟨stripped, hstripped, htext⟩ := Outcome.map_eq_ok_iff.1 hstripped
  obtain ⟨hspelled, hinside, hapart, hkeeps⟩ := Declaration.nothing_lost_of_ofSource hds
  exact ⟨ds, stripped, hds, hstripped, hplaces, htext, hspelled, hinside, hapart,
    hkeeps stripped hstripped⟩

end ShaderInterface.Source
