import ShaderInterface.Proofs.ByteLexemes
import ShaderInterface.Proofs.Rewriting

/-!
# Reading bytes comes to the same as reading characters

The scanner that reads bytes goes from lexeme to lexeme (`run_eq`), so it never cuts a character
into pieces, and its outcome is that of reading characters (`tokenize_eq`, `scan_eq` and
`splice_eq`).
-/

namespace ShaderInterface.Source.Bytewise

open Outcome (bimap)
open Text

variable {stage : Stage} {source : String} {before cs : List Char}

/-! ## Sources -/

/-- A lexeme that has an end is passed over in search of one that has not. -/
theorem unterminated?_cons {l : Lexeme} (hl : ∀ keyword body, l ≠ .unterminated keyword body)
    (line : Nat) (ls : List Lexeme) :
    Outline.unterminated? line (l :: ls) = Outline.unterminated? (line + l.text.count '\n') ls := by
  cases l with
  | unterminated keyword body => exact absurd rfl (hl keyword body)
  | _ => rfl

/-- The scanner finds the declarations among the lexemes that are left to read, or it stops at the
one that has no end. -/
theorem run_eq {cur : Cursor} (h : source.toList = before ++ cs) (hcur : cur.IsAt before) :
    (∀ keyword line,
      Outline.unterminated? (before.count '\n' + 1) (lexemes cur.context cs) =
          some (keyword, line) →
        run stage source cur = .error (.refused (.unterminatedDeclaration stage keyword line))) ∧
    (Outline.unterminated? (before.count '\n' + 1) (lexemes cur.context cs) = none →
      run stage source cur =
        .ok (cur.found ++ declarationsFrom before (lexemes cur.context cs))) := by
  -- by induction on the length, since a lexeme takes more than one character at once
  induction hn : cs.length using Nat.strongRecOn generalizing before cur cs with
  | ind n ih =>
    cases cs with
    | nil =>
      have hend : source.utf8ByteSize ≤ cur.pos := by
        rw [hcur.pos, ← byteCount_toList, h, List.append_nil]
      rw [lexemes_nil, run_of_le hend, declarationsFrom, List.append_nil]
      exact ⟨fun keyword line hfound => by contradiction, fun _ => rfl⟩
    | cons c cs =>
      have htext := text_read cur.context c cs
      have hshorter := length_read_lt cur.context c cs
      have hreads := @readsOrStops_read stage _ _ _ _ _ h hcur
      rw [lexemes_cons]
      generalize read cur.context c cs = next at htext hshorter hreads ⊢
      obtain ⟨l, rest⟩ := next
      dsimp only at htext hshorter hreads ⊢
      rcases hreads with ⟨next, hrun, hnext⟩ | ⟨keyword, body, rfl, hrun⟩
      · have hsource : source.toList = before ++ l.text ++ rest := by
          rw [h, ← htext, List.append_assoc]
        have hrest := ih _ (hn ▸ hshorter) hsource hnext.isAt rfl
        rw [hnext.context, List.count_append, Nat.add_right_comm] at hrest
        have hdeclarations :=
          declarationsFrom_append before [l] (lexemes (cur.context.after l) rest)
        rw [List.singleton_append, List.flatMap_singleton] at hdeclarations
        rw [unterminated?_cons hnext.ends, hrun, hdeclarations, ← List.append_assoc, ← hnext.found]
        exact hrest
      · refine ⟨fun keyword' line hfound => ?_, fun hfound => by contradiction⟩
        obtain ⟨rfl, rfl⟩ := Prod.mk.inj (Option.some.inj hfound)
        exact hrun

/-- The scanner begins in front of the first character. -/
theorem isAt_start : Cursor.start.IsAt [] :=
  ⟨rfl, [], [], rfl, rfl, fun _ h => by contradiction⟩

/-- Reading bytes, the scanner finds the declarations that are found among characters. -/
theorem tokenize_eq (stage : Stage) (source : String) :
    tokenize stage source = bimap id Stop.refused (Declaration.ofSource stage source) := by
  obtain ⟨hopen, hclosed⟩ := @run_eq stage source [] source.toList .start rfl isAt_start
  cases hfound : Outline.unterminated? 1 (lexemes .start source.toList) with
  | some found =>
    have hrefused : Declaration.ofSource stage source =
        .error (.unterminatedDeclaration stage found.1 found.2) := by
      rw [Declaration.ofSource, Outline.ofSource, hfound]
      rfl
    rw [hrefused]
    exact hopen found.1 found.2 hfound
  | none =>
    have hread : Declaration.ofSource stage source =
        .ok (Declaration.ofOutline (Outline.ofLexemes (lexemes .start source.toList))) := by
      rw [Declaration.ofSource, Outline.ofSource, hfound]
      rfl
    rw [hread, Declaration.eq_declarationsFrom_of_ofSource hread]
    exact hclosed hfound

/-- The marked text of a source that is stripped. -/
def Marked.ofStripped (stripped : Stripped) : Marked :=
  ⟨stripped.text, stripped.placeholderOffset, stripped.declarations⟩

/-- A mark on a line of its own stands in the place for a block. -/
theorem mark_ofList (head tail : List Char) (declarations : List (Keyword × String)) :
    mark (String.ofList head) (String.ofList tail) declarations =
      Marked.ofStripped ⟨String.ofList head, String.ofList ('\n' :: tail), declarations⟩ := by
  have hline : String.ofList ('\n' :: tail) = "\n" ++ String.ofList tail :=
    @String.ofList_append ['\n'] tail
  rw [mark, Marked.ofStripped, Stripped.text, Stripped.inject, hline, ← String.append_assoc]
  rfl

/-- What is left of a source is copied from the gaps between its declarations. -/
theorem copyFrom_placeFrom {gap : List Char} {cuts : List (Cut × List Char)}
    (h : source.toList = before ++ (gap ++ cuts.flatMap fun next => next.1.text ++ next.2)) :
    copyFrom source (byteCount before)
        (Declaration.placeFrom (byteCount before + byteCount gap) cuts) =
      .ok (String.ofList (gap ++ cuts.flatMap (·.2))) := by
  induction cuts generalizing before gap with
  | nil =>
    rw [List.flatMap_nil, List.append_nil] at h ⊢
    exact cut_end_eq h
  | cons next cuts ih =>
    rw [List.flatMap_cons] at h
    have hgap := cut_eq h
    -- the next gap begins where the cut ends
    have hrest : source.toList = (before ++ gap ++ next.1.text) ++
        (next.2 ++ cuts.flatMap fun next => next.1.text ++ next.2) := by
      simpa only [List.append_assoc] using h
    have hcopy := ih hrest
    rw [byteCount_append, byteCount_append] at hcopy
    rw [byteCount_append] at hgap
    rw [Declaration.placeFrom, copyFrom]
    dsimp only [Declaration.ofCut]
    rw [hgap, hcopy, List.flatMap_cons, @String.ofList_append gap]
    rfl

/-- The line of a leading `#version` directive ends where it ends among the characters. -/
theorem versionEnd_eq (source : String) : versionEnd source = .ok (versionLineEnd source) := by
  have hparts : source.toList = source.toList.takeWhile isBlank ++ trimStart source.toList :=
    (takeWhile_append_trimStart source.toList).symm
  have hstart : source.utf8ByteSize - byteCount (trimStart source.toList) =
      byteCount (source.toList.takeWhile isBlank) := by
    have hsize := congrArg byteCount hparts
    rw [byteCount_append, byteCount_toList] at hsize
    omega
  unfold versionEnd versionLineEnd
  dsimp only
  rw [hstart, cut_end_eq hparts]
  split
  · dsimp only [bind, Except.bind]
    by_cases hnewline : '\n' ∈ trimStart source.toList
    · rw [find?_eq_some hnewline, if_pos hnewline]
      rfl
    · rw [find?_eq_none hnewline, if_neg hnewline]
      rfl
  · rfl

/-- A source without declarations is marked where the line of a leading `#version` directive ends,
with a newline behind a line that has none. -/
theorem markBare_of_versionLineEnd {line rest : List Char} (h : source.toList = line ++ rest)
    (hend : versionLineEnd source = byteCount line) :
    markBare source = .ok (mark
      (if byteCount line > 0 && line.getLast? != some '\n' then String.ofList line ++ "\n"
        else String.ofList line)
      (String.ofList rest) []) := by
  rw [markBare, versionEnd_eq, hend]
  dsimp only [bind, Except.bind]
  rw [cut_start_eq h, cut_end_eq h]
  dsimp only
  rw [String.toList_ofList]
  rfl

/-- A source without declarations takes its mark where it takes a block. -/
theorem markBare_eq (source : String) :
    markBare source = .ok (Marked.ofStripped (Stripped.ofBare source.toList)) := by
  rw [Stripped.ofBare]
  cases hsplit : splitVersionLine? source.toList with
  | none =>
    rw [markBare_of_versionLineEnd (List.nil_append _).symm (versionLineEnd_of_eq_none hsplit)]
    exact congrArg Except.ok (mark_ofList [] source.toList [])
  | some parts =>
    obtain ⟨line, rest⟩ := parts
    obtain ⟨blanks, directive, rfl, -, hdirective, hnewline, htext⟩ :=
      splitVersionLine?_eq_some hsplit
    have hend : ∀ line, source.toList = line ++ rest → versionLineEnd source = byteCount line := by
      intro line h
      rw [versionLineEnd_of_eq_some hsplit, ← byteCount_toList, h, byteCount_append,
        Nat.add_sub_cancel]
    dsimp only
    rcases htext with htext | ⟨htext, rfl⟩
    · -- a newline ends the line
      have hsource : source.toList = (blanks ++ directive ++ ['\n']) ++ rest := by
        rw [htext, List.append_assoc _ ['\n']]
        rfl
      rw [markBare_of_versionLineEnd hsource (hend _ hsource), List.getLast?_concat,
        bne_self_eq_false, Bool.and_false, if_neg Bool.false_ne_true]
      exact congrArg Except.ok (mark_ofList _ rest [])
    · -- the source ends with the line, and the newline is added
      have hsource : source.toList = (blanks ++ directive) ++ [] := by
        rw [htext, List.append_nil]
      have hlast : (blanks ++ directive).getLast? ≠ some '\n' := by
        rw [List.getLast?_append_of_ne_nil _ hdirective]
        exact fun hlast => hnewline (List.mem_of_getLast? hlast)
      have hline := List.append_ne_nil_of_right_ne_nil blanks hdirective
      have hpos : byteCount (blanks ++ directive) > 0 :=
        Nat.lt_of_lt_of_le (List.length_pos_iff.2 hline) (length_le_byteCount _)
      rw [markBare_of_versionLineEnd hsource (hend _ hsource), decide_eq_true hpos,
        bne_iff_ne.2 hlast, Bool.and_self, if_pos rfl, ← @String.ofList_append _ ['\n']]
      exact congrArg Except.ok (mark_ofList _ [] [])

/-- A block of code takes the place of the mark, whatever the block is. -/
theorem splice_eq (stripped : Stripped) (block : String) :
    splice (Marked.ofStripped stripped) block = .ok (stripped.inject block) := by
  have htext : stripped.text.toList =
      stripped.head.toList ++ (placeholder.toList ++ stripped.tail.toList) := by
    rw [Stripped.text, Stripped.toList_inject, List.append_assoc]
  have htail : stripped.text.toList =
      (stripped.head.toList ++ placeholder.toList) ++ stripped.tail.toList := by
    rw [htext, List.append_assoc]
  have hhead := cut_start_eq htext
  have hrest := cut_end_eq htail
  rw [byteCount_toList, String.ofList_toList] at hhead
  rw [byteCount_append, byteCount_toList, byteCount_toList, String.ofList_toList] at hrest
  unfold splice Marked.ofStripped Stripped.placeholderOffset
  dsimp only
  rw [hhead, hrest]
  rfl

/-- Reading bytes, the scanner takes out the declarations that are taken out of the characters. -/
theorem scan_eq (stage : Stage) (source : String) :
    scan stage source = bimap Marked.ofStripped Stop.refused (Stripped.ofSource stage source) := by
  unfold scan Stripped.ofSource
  split
  · rfl
  rw [tokenize_eq, Declaration.ofSource]
  cases houtline : Outline.ofSource stage source with
  | error cause => rfl
  | ok outline =>
    have htext := Outline.text_of_ofSource houtline
    obtain ⟨lead, cuts⟩ := outline
    cases cuts with
    | nil =>
      obtain rfl : lead = source.toList := by simpa [Outline.text] using htext
      exact markBare_eq source
    | cons next cuts =>
      rw [Outline.text, List.flatMap_cons, List.append_assoc] at htext
      have hhead := cut_start_eq htext.symm
      have hrest : source.toList =
          (lead ++ next.1.text) ++ (next.2 ++ cuts.flatMap fun next => next.1.text ++ next.2) := by
        rw [List.append_assoc, htext]
      have htail := copyFrom_placeFrom hrest
      rw [byteCount_append] at htail
      have hplaced : Declaration.ofOutline ⟨lead, next :: cuts⟩ =
          Declaration.placeFrom (byteCount lead) (next :: cuts) :=
        Declaration.ofOutline_eq _
      have hdeclarations := Declaration.map_placeFrom (byteCount lead) (next :: cuts)
      dsimp only [Except.map, Outcome.bimap, bind, Except.bind, id]
      rw [hplaced]
      dsimp only [Declaration.placeFrom, Declaration.ofCut] at hdeclarations ⊢
      rw [hhead, htail, hdeclarations]
      exact congrArg Except.ok (mark_ofList lead _ _)

/-- For every source, whatever characters stand in it, the scanner that reads bytes cuts only
between characters, and only texts in UTF-8: it never stops but where the source is refused, and
else it has the declarations, the text without them and the text with a block that reading
characters gives. The places of declarations and of the mark lie between characters. -/
theorem cuts_between_characters (stage : Stage) (source block : String) :
    tokenize stage source = bimap id Stop.refused (Declaration.ofSource stage source) ∧
    scan stage source = bimap Marked.ofStripped Stop.refused (Stripped.ofSource stage source) ∧
    (scan stage source >>= fun marked => splice marked block) =
      bimap (Stripped.inject · block) Stop.refused (Stripped.ofSource stage source) ∧
    (∀ ds, Declaration.ofSource stage source = .ok ds → ∀ d ∈ ds,
      IsBoundary source d.start ∧ IsBoundary source d.stop) ∧
    ∀ stripped, Stripped.ofSource stage source = .ok stripped →
      IsBoundary stripped.text stripped.placeholderOffset ∧
        IsBoundary stripped.text (stripped.placeholderOffset + placeholder.utf8ByteSize) := by
  refine ⟨tokenize_eq stage source, scan_eq stage source, ?_, fun ds hds d hd => ?_,
    fun stripped _ => ?_⟩
  · rw [scan_eq]
    cases Stripped.ofSource stage source with
    | error cause => rfl
    | ok stripped => exact splice_eq stripped block
  · obtain ⟨s, htext, rfl⟩ := Declaration.exists_spelling hds hd
    have hstop : source.toList = (s.before ++ s.span) ++ s.behind := by
      rw [← htext, Spelling.text, List.append_assoc]
    have hboundary := isBoundary_byteCount hstop
    rw [byteCount_append] at hboundary
    exact ⟨isBoundary_byteCount htext.symm, hboundary⟩
  · have htext : stripped.text.toList =
        (stripped.head.toList ++ placeholder.toList) ++ stripped.tail.toList :=
      Stripped.toList_inject stripped placeholder
    have hoffset := htext
    rw [List.append_assoc] at hoffset
    have hstart := isBoundary_byteCount hoffset
    have hstop := isBoundary_byteCount htext
    rw [byteCount_append, byteCount_toList, byteCount_toList] at hstop
    rw [byteCount_toList] at hstart
    exact ⟨hstart, hstop⟩

/-- A source with characters of two, three and four bytes in a comment, in front of a declaration,
in the declaration and behind it. -/
def wideSource : String :=
  "/* é */ 日;\tuniform vec4 日本;;\n// 𝒫\nvoid main() \x7b\x7d\n"

/-- The declaration is found, and a block with such characters goes in its place. -/
theorem cuts_between_characters_wideSource :
    ∃ ds stripped, Declaration.ofSource .fragment wideSource = .ok ds ∧
      Stripped.ofSource .fragment wideSource = .ok stripped ∧
      ds.map (fun d => (d.payload, d.start, d.stop)) = [("vec4 日本", 13, 35)] ∧
      tokenize .fragment wideSource = .ok ds ∧
      (∀ d ∈ ds, IsBoundary wideSource d.start ∧ IsBoundary wideSource d.stop) ∧
      IsBoundary stripped.text stripped.placeholderOffset ∧
      (scan .fragment wideSource >>= fun marked => splice marked "é") =
        .ok (stripped.inject "é") := by
  have hfound : (do
      let ds ← Declaration.ofSource .fragment wideSource
      let _ ← Stripped.ofSource .fragment wideSource
      return ds.map fun d => (d.payload, d.start, d.stop) : Except LinkError (List _)) =
        .ok [("vec4 日本", 13, 35)] := by
    decide +kernel
  obtain ⟨ds, hds, hfound⟩ := Outcome.bind_eq_ok_iff.1 hfound
  obtain ⟨stripped, hstripped, hfound⟩ := Outcome.bind_eq_ok_iff.1 hfound
  obtain ⟨htokenize, -, hsplice, hplaces, hmark⟩ :=
    cuts_between_characters .fragment wideSource "é"
  rw [hds] at htokenize
  rw [hstripped] at hsplice
  exact ⟨ds, stripped, hds, hstripped, Except.ok.inj hfound, htokenize, hplaces ds hds,
    (hmark stripped hstripped).1, hsplice⟩

end ShaderInterface.Source.Bytewise
