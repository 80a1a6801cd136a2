import ShaderInterface.Proofs.Merging

/-!
# Lines that are merged

Which uniforms come out of a list of lines, or with which cause the list is refused, told by the
lines alone. A line that repeats an earlier one changes nothing, wherever it stands behind that one.
The uniforms are those of the first lines (`Uniform.firstLines`), and the first line that offends
against those in front of it (`Uniform.Offence`) decides how a list is refused. Main statement:
`Uniform.merge_firstLines`.
-/

namespace ShaderInterface.Uniform

/-! ## Lines and their repetitions -/

/-- The text of the line stands in an earlier line too, but for blanks. -/
def Repeats (front : List (Stage × String)) (line : Stage × String) : Prop :=
  ∃ earlier ∈ front, Text.collapse earlier.2 = Text.collapse line.2

/-- The lines without those that repeat an earlier one. -/
def firstLines (lines : List (Stage × String)) : List (Stage × String) :=
  lines.eraseDupsBy fun line earlier => Text.collapse line.2 == Text.collapse earlier.2

/-- The first line is kept, and those that repeat it are dropped. -/
theorem firstLines_cons (line : Stage × String) (lines : List (Stage × String)) :
    firstLines (line :: lines) = line :: firstLines (lines.filter fun other =>
      !(Text.collapse other.2 == Text.collapse line.2)) := by
  simp only [firstLines, List.eraseDupsBy_cons, Bool.decide_eq_false]

/-- No line is new. -/
theorem mem_of_mem_firstLines {lines : List (Stage × String)} {line : Stage × String}
    (h : line ∈ firstLines lines) : line ∈ lines := by
  match lines with
  | [] => exact h
  | first :: lines =>
    rw [firstLines_cons, List.mem_cons] at h
    rcases h with rfl | h
    · exact List.mem_cons_self
    · exact List.mem_cons_of_mem first (List.mem_filter.1 (mem_of_mem_firstLines h)).1
termination_by lines.length
decreasing_by exact Nat.lt_succ_of_le (List.length_filter_le _ _)

/-- The uniforms that are kept are those of the lines that are kept. -/
theorem parseAll_firstLines {lines : List (Stage × String)} {us : List Uniform}
    (h : parseAll lines = .ok us) : parseAll (firstLines lines) = .ok (distinct us) := by
  rw [parseAll, Outcome.mapM_eq_ok_iff] at h ⊢
  induction us using distinct_induction generalizing lines with
  | nil =>
    rw [List.forall₂_nil_right_iff] at h
    rw [h]
    exact .nil
  | cons u us ih =>
    obtain ⟨line, rest, hline, hrest, rfl⟩ := List.forall₂_cons_right_iff.1 h
    rw [firstLines_cons, distinct_cons]
    refine .cons hline (ih (List.rel_filter ?_ hrest))
    -- a line repeats the first one if its uniform does
    intro other v hv
    simp only [repeats, (parse_eq_ok_iff.1 hline).2.1, (parse_eq_ok_iff.1 hv).2.1]

/-- A text that is another one but for blanks is read alike. -/
theorem parse_of_collapse_eq {stage stage' : Stage} {text text' : String} {u : Uniform}
    (h : Text.collapse text' = Text.collapse text) (hu : parse stage text = .ok u) :
    parse stage' text' = .ok ⟨u.toDeclarator, text', stage'⟩ := by
  rw [parse_eq_ok_iff] at hu ⊢
  exact ⟨Declarator.parse_congr (Text.collapse_inj.1 h) ▸ hu.1, rfl, rfl⟩

/-! ## Success -/

/-- Every line is read, and any two lines of one name are the same but for blanks. -/
structure Mergeable (lines : List (Stage × String)) : Prop where
  read : ∀ line ∈ lines, ∃ u, parse line.1 line.2 = .ok u
  same : ∀ line ∈ lines, ∀ line' ∈ lines, ∀ u u', parse line.1 line.2 = .ok u →
    parse line'.1 line'.2 = .ok u' → u.name = u'.name →
      Text.collapse line.2 = Text.collapse line'.2

/-- Lines are merged if they are mergeable. -/
theorem exists_merge_iff_mergeable {lines : List (Stage × String)} :
    (∃ us, merge lines = .ok us) ↔ Mergeable lines := by
  simp only [merge_eq_ok_iff]
  constructor
  · rintro ⟨-, all, hall, hconsistent, -⟩
    refine ⟨Outcome.exists_mapM_eq_ok_iff.1 ⟨all, hall⟩, ?_⟩
    intro line hline line' hline' u u' hu hu' hname
    have hmem := (Outcome.mem_iff_of_mapM_eq_ok hall).2 ⟨line, hline, hu⟩
    have hmem' := (Outcome.mem_iff_of_mapM_eq_ok hall).2 ⟨line', hline', hu'⟩
    have htext := hconsistent u hmem u' hmem' hname
    rwa [(parse_eq_ok_iff.1 hu).2.1, (parse_eq_ok_iff.1 hu').2.1] at htext
  · intro h
    obtain ⟨all, hall⟩ := Outcome.exists_mapM_eq_ok_iff.2 h.read
    refine ⟨_, all, hall, fun u hu v hv hname => ?_, rfl⟩
    obtain ⟨line, hline, hu⟩ := (Outcome.mem_iff_of_mapM_eq_ok hall).1 hu
    obtain ⟨line', hline', hv⟩ := (Outcome.mem_iff_of_mapM_eq_ok hall).1 hv
    rw [(parse_eq_ok_iff.1 hu).2.1, (parse_eq_ok_iff.1 hv).2.1]
    exact h.same line hline line' hline' u v hu hv hname

/-- Lines of which each repeats one of some mergeable lines are mergeable. -/
theorem Mergeable.of_repeats {lines lines' : List (Stage × String)} (h : Mergeable lines)
    (hrepeats : ∀ line ∈ lines', Repeats lines line) : Mergeable lines' := by
  constructor
  case read =>
    intro line' hline'
    obtain ⟨line, hline, htext⟩ := hrepeats line' hline'
    obtain ⟨u, hu⟩ := h.read line hline
    exact ⟨_, parse_of_collapse_eq htext.symm hu⟩
  case same =>
    intro line₁' hline₁' line₂' hline₂' u₁ u₂ hu₁ hu₂ hname
    obtain ⟨line₁, hline₁, htext₁⟩ := hrepeats line₁' hline₁'
    obtain ⟨line₂, hline₂, htext₂⟩ := hrepeats line₂' hline₂'
    have hsame := h.same line₁ hline₁ line₂ hline₂ _ _ (parse_of_collapse_eq htext₁ hu₁)
      (parse_of_collapse_eq htext₂ hu₂) hname
    rw [← htext₁, ← htext₂, hsame]

/-! ## What is merged -/

/-- What is read from lines has their stages and their texts. -/
theorem map_stage_text_of_parseAll {lines : List (Stage × String)} {us : List Uniform}
    (h : parseAll lines = .ok us) : us.map (fun u => (u.stage, u.text)) = lines := by
  induction Outcome.mapM_eq_ok_iff.1 h with
  | nil => rfl
  | cons hline hrest ih =>
    obtain ⟨-, htext, hstage⟩ := parse_eq_ok_iff.1 hline
    rw [List.map_cons, ih (Outcome.mapM_eq_ok_iff.2 hrest), htext, hstage]

section

variable {lines : List (Stage × String)} {us : List Uniform}

/-- What is merged are the uniforms of the first lines. -/
theorem parseAll_firstLines_of_merge (h : merge lines = .ok us) :
    parseAll (firstLines lines) = .ok us := by
  obtain ⟨all, hall, -, rfl⟩ := merge_eq_ok_iff.1 h
  exact parseAll_firstLines hall

/-- Each line declares what one of the uniforms does. -/
theorem exists_mem_of_merge (h : merge lines = .ok us) {line : Stage × String}
    (hline : line ∈ lines) : ∃ u ∈ us, Text.collapse u.text = Text.collapse line.2 := by
  obtain ⟨all, hall, -, rfl⟩ := merge_eq_ok_iff.1 h
  obtain ⟨u, hu⟩ := Outcome.exists_mapM_eq_ok_iff.1 ⟨all, hall⟩ line hline
  obtain ⟨v, hv, huv⟩ :=
    exists_mem_distinct ((Outcome.mem_iff_of_mapM_eq_ok hall).2 ⟨line, hline, hu⟩)
  rw [repeats_iff, (parse_eq_ok_iff.1 hu).2.1] at huv
  exact ⟨v, hv, huv.symm⟩

end

/-- What is found in lines is what they are merged to. -/
theorem merge_of_foldlM {lines : List (Stage × String)} {found : Array Uniform}
    (h : lines.foldlM addLine #[] = .ok found) : merge lines = .ok found.toList := by
  rw [merge, h]
  rfl

/-! ## Repetitions -/

/-- A line that repeats one of the lines before it adds nothing. -/
theorem addLine_of_repeats {front : List (Stage × String)} {found : Array Uniform}
    {line : Stage × String} (hfront : front.foldlM addLine #[] = .ok found)
    (hrepeats : Repeats front line) : addLine found line = .ok found := by
  obtain ⟨earlier, hearlier, htext⟩ := hrepeats
  have hmerge := merge_of_foldlM hfront
  have hfound := collected_of_merge hmerge
  obtain ⟨u, hu, hutext⟩ := exists_mem_of_merge hmerge hearlier
  -- the line is read as the uniform that is found, but for its text and its stage
  have hline : parse line.1 line.2 = .ok ⟨u.toDeclarator, line.2, line.1⟩ := by
    have hparse : parse u.stage u.text = .ok u := parse_eq_ok_iff.2 ⟨hfound.isRead u hu, rfl, rfl⟩
    exact parse_of_collapse_eq (htext.symm.trans hutext.symm) hparse
  have hsame : Text.collapse u.text = Text.collapse line.2 := hutext.trans htext
  refine (addLine_eq_ok_iff hfound).2 ⟨_, hline, ?_, ?_⟩
  · refine hfound.consistent_concat_iff.2 fun v hv hname => ?_
    rwa [List.inj_on_of_nodup_map hfound.nodup hv hu hname]
  · rw [hfound.distinct_concat, if_pos ⟨u, hu, repeats_iff.2 hsame.symm⟩]

/-- A line that repeats an earlier one can be left out. -/
theorem merge_append_cons_of_repeats {front behind : List (Stage × String)} {line : Stage × String}
    (h : Repeats front line) : merge (front ++ line :: behind) = merge (front ++ behind) := by
  rw [merge, merge, List.foldlM_append, List.foldlM_append]
  cases hfront : front.foldlM addLine #[] with
  | error cause => rfl
  | ok found =>
    show ((line :: behind).foldlM addLine found).map _ = (behind.foldlM addLine found).map _
    rw [List.foldlM_cons, addLine_of_repeats hfront h]
    rfl

/-! ## Failure -/

/-- What is wrong with a line behind the given ones. A line that repeats one of these is passed
over. -/
inductive Offence (front : List (Stage × String)) (line : Stage × String) : LinkError → Prop
  /-- The line is not read. -/
  | unread {cause : LinkError} (hnew : ¬ Repeats front line)
      (hline : parse line.1 line.2 = .error cause) : Offence front line cause
  /-- The line declares a name that an earlier line declares in other words. -/
  | conflict {first : Stage × String} {u v : Uniform} (hnew : ¬ Repeats front line)
      (hfirst : first ∈ firstLines front) (hu : parse first.1 first.2 = .ok u)
      (hv : parse line.1 line.2 = .ok v) (hname : u.name = v.name) :
      Offence front line (.conflictingUniforms v.name first.2 line.2)

/-- Nothing is wrong with any of the lines. -/
def Inoffensive (lines : List (Stage × String)) : Prop :=
  ∀ front line behind cause, lines = front ++ line :: behind → ¬ Offence front line cause

/-- Behind lines that are merged, a line is refused for its offence. -/
theorem addLine_eq_error_iff {front : List (Stage × String)} {found : Array Uniform}
    {line : Stage × String} {cause : LinkError} (hfront : front.foldlM addLine #[] = .ok found) :
    addLine found line = .error cause ↔ Offence front line cause := by
  have hmerge := merge_of_foldlM hfront
  have hfound := collected_of_merge hmerge
  have hfirst := parseAll_firstLines_of_merge hmerge
  constructor
  · intro h
    have hnew : ¬ Repeats front line := by
      intro hrepeats
      rw [addLine_of_repeats hfront hrepeats] at h
      contradiction
    obtain ⟨fault, hfault, rfl⟩ | ⟨v, hv, u, hu, hname, -, rfl⟩ := addLine_eq_error h
    · refine .unread hnew ?_
      rw [parse, hfault]
    · obtain ⟨first, hmem, hu⟩ :=
        (Outcome.mem_iff_of_mapM_eq_ok hfirst).1 (Array.mem_toList_iff.2 hu)
      rw [(parse_eq_ok_iff.1 hu).2.1, (parse_eq_ok_iff.1 hv).2.1]
      exact .conflict hnew hmem hu hv hname
  · intro h
    cases h with
    | unread hnew hline =>
      rw [addLine, hline]
      rfl
    | @conflict first u v hnew hmem hu hv hname =>
      have hufound := (Outcome.mem_iff_of_mapM_eq_ok hfirst).2 ⟨first, hmem, hu⟩
      cases hadd : addLine found line with
      | ok found' =>
        obtain ⟨w, hw, hconsistent, -⟩ := (addLine_eq_ok_iff hfound).1 hadd
        obtain rfl := Except.ok.inj (hv.symm.trans hw)
        have htext := hfound.consistent_concat_iff.1 hconsistent u hufound hname
        rw [(parse_eq_ok_iff.1 hu).2.1, (parse_eq_ok_iff.1 hv).2.1] at htext
        exact absurd ⟨first, mem_of_mem_firstLines hmem, htext⟩ hnew
      | error cause =>
        obtain ⟨fault, hfault, -⟩ | ⟨w, hw, u', hu', hname', -, rfl⟩ := addLine_eq_error hadd
        · rw [parse, hfault] at hv
          contradiction
        · obtain rfl := Except.ok.inj (hv.symm.trans hw)
          -- only one uniform of that name is found
          obtain rfl := List.inj_on_of_nodup_map hfound.nodup (Array.mem_toList_iff.2 hu') hufound
            (hname'.trans hname.symm)
          rw [(parse_eq_ok_iff.1 hu).2.1, (parse_eq_ok_iff.1 hv).2.1]

/-- Nothing is wrong with lines that are merged. -/
theorem inoffensive_of_merge {lines : List (Stage × String)} {us : List Uniform}
    (h : merge lines = .ok us) : Inoffensive lines := by
  rintro front line behind cause rfl hoffence
  obtain ⟨out, hout, -⟩ := Outcome.map_eq_ok_iff.1 h
  rw [List.foldlM_append, Outcome.bind_eq_ok_iff] at hout
  obtain ⟨found, hfront, hrest⟩ := hout
  rw [List.foldlM_cons, (addLine_eq_error_iff hfront).2 hoffence] at hrest
  contradiction

/-- Lines that are not merged are refused for the first offence. -/
theorem exists_offence_of_merge {lines : List (Stage × String)} {cause : LinkError}
    (h : merge lines = .error cause) : ∃ front line behind, lines = front ++ line :: behind ∧
      Inoffensive front ∧ Offence front line cause := by
  rw [merge, Outcome.map_eq_error_iff] at h
  obtain ⟨front, line, behind, found, rfl, hfront, hline⟩ := Outcome.exists_of_foldlM_eq_error h
  exact ⟨front, line, behind, rfl, inoffensive_of_merge (merge_of_foldlM hfront),
    (addLine_eq_error_iff hfront).1 hline⟩

/-- Lines are refused for the first offence. -/
theorem merge_eq_error_iff {lines : List (Stage × String)} {cause : LinkError} :
    merge lines = .error cause ↔ ∃ front line behind, lines = front ++ line :: behind ∧
      Inoffensive front ∧ Offence front line cause := by
  refine ⟨exists_offence_of_merge, ?_⟩
  rintro ⟨front, line, behind, rfl, hinoffensive, hoffence⟩
  cases hfront : front.foldlM addLine #[] with
  | ok found =>
    rw [merge, Outcome.map_eq_error_iff, Outcome.foldlM_eq_error_iff]
    exact ⟨front, line, behind, found, rfl, hfront, (addLine_eq_error_iff hfront).2 hoffence⟩
  | error earlier =>
    have hmerge : merge front = .error earlier := Outcome.map_eq_error_iff.2 hfront
    obtain ⟨front', line', behind', hlines, -, hoffence'⟩ := exists_offence_of_merge hmerge
    exact absurd hoffence' (hinoffensive front' line' behind' earlier hlines)

/-- Lines are merged if each is read and any two of one name are the same but for blanks, which is
so for any lines of the same texts. The uniforms have different names and are read from the lines
that repeat no earlier one, in order; a repetition can stand anywhere behind the line that it
repeats. Lines that are not merged are refused for the first one that offends against the lines in
front of it. -/
theorem merge_firstLines (lines : List (Stage × String)) :
    ((∃ us, merge lines = .ok us) ↔ Mergeable lines) ∧
    (∀ lines', (∀ text, (∃ line ∈ lines, Text.collapse line.2 = text) ↔
        ∃ line ∈ lines', Text.collapse line.2 = text) → (Mergeable lines ↔ Mergeable lines')) ∧
    (∀ us, merge lines = .ok us → (us.map (·.name)).Nodup ∧
      us.map (fun u => (u.stage, u.text)) = firstLines lines ∧
      parseAll (firstLines lines) = .ok us) ∧
    (∀ front behind, lines = front ++ behind → ∀ line, Repeats front line →
      merge (front ++ line :: behind) = merge lines) ∧
    ∀ cause, merge lines = .error cause ↔ ∃ front line behind, lines = front ++ line :: behind ∧
      Inoffensive front ∧ Offence front line cause := by
  refine ⟨exists_merge_iff_mergeable, fun lines' htexts => ⟨fun h => ?_, fun h => ?_⟩,
    fun us h => ?_, ?_, fun cause => merge_eq_error_iff⟩
  · exact h.of_repeats fun line hline => (htexts _).2 ⟨line, hline, rfl⟩
  · exact h.of_repeats fun line hline => (htexts _).1 ⟨line, hline, rfl⟩
  · have hfirst := parseAll_firstLines_of_merge h
    exact ⟨(collected_of_merge h).nodup, map_stage_text_of_parseAll hfirst, hfirst⟩
  · rintro front behind rfl line hrepeats
    exact merge_append_cons_of_repeats hrepeats

end ShaderInterface.Uniform
