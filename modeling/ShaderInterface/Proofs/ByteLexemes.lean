import ShaderInterface.Proofs.BytePlaces

/-!
# Lexemes that are read from bytes

Where the characters of a lexeme begin, the scanner that reads bytes finds the end of the lexeme,
and moves there as the context does, or it stops at a declaration that has no end
(`readsOrStops_read`).
-/

namespace ShaderInterface.Source.Bytewise

open Text

variable {stage : Stage} {source : String} {before cs : List Char}

/-! ## Steps -/

/-- The cursor stands behind the characters `before`, and the last declaration ends in front of all
blanks at their end. -/
structure Cursor.IsAt (cur : Cursor) (before : List Char) : Prop where
  pos : cur.pos = byteCount before
  lastEnd : ∃ front mid, before = front ++ mid ∧ cur.lastEnd = byteCount front ∧
    ∀ c ∈ front.getLast?, ¬ Outline.isIndent c

/-- The cursor moves behind a lexeme that it reads at the end of the characters `before`. -/
def Passes (stage : Stage) (source : String) (before : List Char) (cur : Cursor) (l : Lexeme) :
    Prop :=
  run stage source cur =
    run stage source (cur.move (byteCount (before ++ l.text)) (cur.context.after l))

/-- Behind more characters the cursor stands at the end of these. -/
theorem Cursor.IsAt.move {cur : Cursor} (h : cur.IsAt before) (context : Context) :
    (cur.move (byteCount (before ++ cs)) context).IsAt (before ++ cs) := by
  obtain ⟨front, mid, rfl, hlast, hfront⟩ := h.lastEnd
  exact ⟨rfl, front, mid ++ cs, List.append_assoc .., hlast, hfront⟩

section

variable {cur : Cursor} {c : Char}

/-- A byte that begins nothing longer is passed over. -/
theorem step_single {xs : List Char} (hdrop : (sourceOctets source).drop cur.pos = c :: xs)
    (hname : ¬ isNameStart c)
    (hcomment : c = '/' → xs.head? ≠ some '/' ∧ xs.head? ≠ some '*')
    (hdirective : c = '#' → ¬ cur.context.lineStart) :
    step stage source cur = .ok (cur.move (cur.pos + 1) (cur.context.after (single c))) := by
  have hline : ¬ (c == '/' && xs.head? == some '/') := by
    rw [Bool.and_eq_true, beq_iff_eq, beq_iff_eq]
    exact fun ⟨hc, hhead⟩ => (hcomment hc).1 hhead
  have hblock : ¬ (c == '/' && xs.head? == some '*') := by
    rw [Bool.and_eq_true, beq_iff_eq, beq_iff_eq]
    exact fun ⟨hc, hhead⟩ => (hcomment hc).2 hhead
  have hhash : ¬ (c == '#' && cur.context.lineStart) := by
    rw [Bool.and_eq_true, beq_iff_eq]
    exact fun ⟨hc, hstart⟩ => hdirective hc hstart
  unfold step
  rw [hdrop]
  dsimp only
  by_cases hnewline : c == '\n'
  · rw [if_pos hnewline, single, if_pos hnewline]
    rfl
  by_cases hblank : isLineBlank c
  · rw [if_neg hnewline, if_pos hblank, single, if_neg hnewline, if_pos hblank]
    rfl
  rw [if_neg hnewline, if_neg hblank, if_neg hline, if_neg hblock, if_neg hhash, single,
    if_neg hnewline, if_neg hblank]
  by_cases hterminator : isTerminator c
  · rw [if_pos hterminator, if_pos hterminator]
    rfl
  by_cases hopen : c == '('
  · rw [if_neg hterminator, if_pos hopen, if_neg hterminator, if_pos hopen]
    rfl
  rw [if_neg hterminator, if_neg hopen, if_neg hterminator, if_neg hopen]
  by_cases hclose : c == ')'
  · rw [if_pos hclose, if_pos hclose]
    rfl
  · rw [if_neg hclose, if_neg hname, if_neg hclose]
    rfl

/-- A byte that begins an identifier begins a word. -/
theorem step_name {xs : List Char} (hdrop : (sourceOctets source).drop cur.pos = c :: xs)
    (hname : isNameStart c) : step stage source cur = takeWord stage source cur := by
  have hne : ∀ a, ¬ isNameStart a → (c == a) = false := by
    intro a ha
    rw [beq_eq_false_iff_ne]
    rintro rfl
    exact ha hname
  have hblank : isLineBlank c = false := by
    rw [isLineBlank, hne ' ' (by decide), hne '\t' (by decide), hne '\r' (by decide)]
    rfl
  have hterminator : isTerminator c = false := by
    rw [isTerminator, hne ';' (by decide), hne '{' (by decide), hne '}' (by decide)]
    rfl
  simp only [step, hdrop, hblank, hterminator, hne '\n' (by decide), hne '/' (by decide),
    hne '#' (by decide), hne '(' (by decide), hne ')' (by decide), hname, Bool.false_and,
    Bool.false_eq_true, if_false, if_true]

/-- In front of a byte the source does not end. -/
theorem lt_of_drop_eq_cons {i : Nat} {xs : List Char} (h : (sourceOctets source).drop i = c :: xs) :
    i < source.utf8ByteSize := by
  have hlength := congrArg List.length h
  rw [List.length_drop, sourceOctets_eq, length_octets, byteCount_toList, List.length_cons]
    at hlength
  omega

/-- A character beyond ASCII is no character with a meaning. -/
theorem single_of_le (hc : 128 ≤ c.toNat) : single c = .other c := by
  refine single_eq_other fun hmem => Nat.not_lt.2 hc ?_
  simp only [List.mem_cons, List.not_mem_nil, or_false] at hmem
  rcases hmem with rfl | rfl | rfl | rfl | rfl | rfl | rfl | rfl | rfl <;> decide

/-- The bytes beyond ASCII are passed over one after the other. -/
theorem run_of_drop_eq_append {ds xs : List Char} (hds : ∀ d ∈ ds, 128 ≤ d.toNat) (hne : ds ≠ [])
    (hdrop : (sourceOctets source).drop cur.pos = ds ++ xs) :
    run stage source cur = run stage source
      (cur.move (cur.pos + ds.length) ⟨false, false, cur.context.parenDepth⟩) := by
  induction ds generalizing cur with
  | nil => exact absurd rfl hne
  | cons d ds ih =>
    rw [List.forall_mem_cons] at hds
    rw [List.cons_append] at hdrop
    have hstep : step stage source cur =
        .ok (cur.move (cur.pos + 1) (cur.context.after (single d))) := by
      refine step_single hdrop (fun hname => ?_) (fun hslash => ?_) fun hhash => ?_
      · exact Nat.not_lt.2 hds.1 (lt_of_isNamePart (isNamePart_of_isNameStart hname))
      · exact absurd hslash (ne_of_le_of_lt hds.1 (by decide))
      · exact absurd hhash (ne_of_le_of_lt hds.1 (by decide))
    rw [single_of_le hds.1] at hstep
    rw [run_of_step_eq_ok (lt_of_drop_eq_cons hdrop) hstep]
    rcases eq_or_ne ds [] with rfl | hne
    · rfl
    · have hdrop' : (sourceOctets source).drop (cur.pos + 1) = ds ++ xs := by
        rw [← List.drop_drop, hdrop, List.drop_one, List.tail_cons]
      rw [List.length_cons, Nat.add_comm ds.length, ← Nat.add_assoc]
      exact ih hds.2 hne hdrop'

end

section

variable {cur : Cursor} {c : Char} (h : source.toList = before ++ c :: cs) (hcur : cur.IsAt before)
include h hcur

/-- The bytes at the cursor are those of the next characters. -/
theorem drop_pos : (sourceOctets source).drop cur.pos = octets (c :: cs) := by
  rw [hcur.pos, drop_sourceOctets h]

/-- In front of a character the source does not end. -/
theorem pos_lt : cur.pos < source.utf8ByteSize := by
  obtain ⟨d, ds, hcons⟩ := List.exists_cons_of_ne_nil (charOctets_ne_nil c)
  have hdrop := drop_pos h hcur
  rw [octets_cons, hcons] at hdrop
  exact lt_of_drop_eq_cons hdrop

/-- A character that begins nothing longer is passed over, with all of its bytes. -/
theorem passes_single (hname : ¬ isNameStart c)
    (hcomment : c = '/' → cs.head? ≠ some '/' ∧ cs.head? ≠ some '*')
    (hdirective : c = '#' → ¬ cur.context.lineStart) :
    Passes stage source before cur (single c) := by
  rw [Passes, text_single, byteCount_append, ← hcur.pos]
  have hdrop := drop_pos h hcur
  by_cases hc : c.toNat < 128
  · rw [octets_cons_of_lt hc] at hdrop
    rw [byteCount_cons_of_lt hc]
    refine run_of_step_eq_ok (pos_lt h hcur) (step_single hdrop hname (fun hslash => ?_) hdirective)
    rw [Ne, Ne, head?_octets_eq_some_iff (by decide), head?_octets_eq_some_iff (by decide)]
    exact hcomment hslash
  · have hc := Nat.not_lt.1 hc
    rw [single_of_le hc, byteCount_cons, byteCount_nil, Nat.add_zero]
    exact run_of_drop_eq_append (fun d => le_toNat_of_mem_charOctets hc) (charOctets_ne_nil c) hdrop

/-- A line comment is passed over. -/
theorem passes_lineComment (hc : c = '/') (hcs : cs.head? = some '/') :
    Passes stage source before cur (.lineComment (c :: cs.takeWhile (· != '\n'))) := by
  subst hc
  have hdrop := drop_pos h hcur
  rw [octets_cons_of_lt (by decide)] at hdrop
  have hstep : step stage source cur =
      .ok (cur.move (skipWhile source (· != '\n') cur.pos) cur.context) := by
    unfold step
    rw [hdrop]
    dsimp only
    rw [if_neg (by decide), if_neg (by decide), head?_octets_beq (by decide), hcs, if_pos (by rfl)]
  rw [hcur.pos, skipWhile_eq h (tellsAscii_bne (by decide))] at hstep
  exact run_of_step_eq_ok (pos_lt h hcur) hstep

/-- A block comment is passed over. -/
theorem passes_blockComment (hc : c = '/') (hcs : cs.head? = some '*') :
    Passes stage source before cur (readBlockComment cs.tail).1 := by
  obtain ⟨ds, rfl⟩ := List.head?_eq_some_iff.1 hcs
  subst hc
  have hdrop := drop_pos h hcur
  rw [octets_cons_of_lt (by decide), octets_cons_of_lt (by decide)] at hdrop
  have htext : (readBlockComment ds).1 =
      .blockComment ('/' :: '*' :: ds.take (commentLength ds + 2)) := by
    rw [← spanNeighbours_insideComment (b := ' ') fun hb => absurd hb (by decide)]
    rfl
  have htake : (octets ds).take (commentLength (octets ds)) =
      octets (ds.take (commentLength ds)) := by
    have hparts := take_octets (ds.take (commentLength ds)) (ds.drop (commentLength ds))
    rwa [List.take_append_drop, ← commentLength_octets] at hparts
  have hstep : step stage source cur = .ok (cur.move
      (min (cur.pos + 2 + byteCount (ds.take (commentLength ds)) + 2) source.utf8ByteSize)
      { cur.context with
        lineStart :=
          cur.context.lineStart || (octets (ds.take (commentLength ds))).contains '\n' }) := by
    unfold step
    rw [hdrop]
    dsimp only
    rw [if_neg (by decide), if_neg (by decide), if_neg (by simp), if_pos (by rfl), List.tail_cons,
      htake, commentLength_octets]
  have hsize : source.utf8ByteSize = byteCount before + (byteCount ds + 2) := by
    rw [← byteCount_toList, h, byteCount_append, byteCount_cons_of_lt (by decide),
      byteCount_cons_of_lt (by decide)]
  have hpos : min (cur.pos + 2 + byteCount (ds.take (commentLength ds)) + 2) source.utf8ByteSize =
      byteCount (before ++ '/' :: '*' :: ds.take (commentLength ds + 2)) := by
    rw [hcur.pos, hsize, byteCount_append, byteCount_cons_of_lt (by decide),
      byteCount_cons_of_lt (by decide)]
    obtain ⟨hclose, behind, hbehind⟩ | ⟨hall, hall'⟩ := take_commentLength ds
    · have hcount := congrArg byteCount hbehind
      have htwo : byteCount ['*', '/'] = 2 := rfl
      rw [byteCount_append] at hcount
      rw [hclose, byteCount_append] at hcount ⊢
      omega
    · rw [hall, hall']
      omega
  have hnewline : (octets (ds.take (commentLength ds))).contains '\n' =
      ('/' :: '*' :: ds.take (commentLength ds + 2)).contains '\n' := by
    rw [contains_octets (by decide)]
    obtain ⟨hclose, -⟩ | ⟨hall, hall'⟩ := take_commentLength ds
    · rw [hclose]
      simp
    · rw [hall, hall']
      simp
  rw [hpos, hnewline] at hstep
  rw [List.tail_cons, htext]
  exact run_of_step_eq_ok (pos_lt h hcur) hstep

/-- A directive is passed over. -/
theorem passes_directive (hc : c = '#') (hline : cur.context.lineStart) :
    Passes stage source before cur (readDirective c cs).1 := by
  subst hc
  have hdrop := drop_pos h hcur
  have htext : (readDirective '#' cs).1 =
      .directive (('#' :: cs).take (directiveLength ('#' :: cs))) := by
    rw [directiveLength, if_neg (by decide), if_neg (by simp), List.take_succ_cons,
      ← spanNeighbours_insideDirective (b := '#') (by decide)]
    rfl
  have hstep : step stage source cur =
      .ok (cur.move (cur.pos + directiveLength (octets ('#' :: cs))) cur.context) := by
    unfold step
    rw [hdrop, octets_cons_of_lt (by decide)]
    dsimp only
    rw [if_neg (by decide), if_neg (by decide), if_neg (by simp), if_neg (by simp),
      if_pos (by simp [hline])]
  rw [hcur.pos, directiveLength_octets, ← byteCount_append] at hstep
  rw [htext]
  exact run_of_step_eq_ok (pos_lt h hcur) hstep

end

/-! ## Declarations -/

/-- The cursor `next` stands behind the lexeme that `cur` has read, which has an end, and has found
the declaration that the lexeme may be. -/
structure Cursor.Follows (before : List Char) (l : Lexeme) (cur next : Cursor) : Prop where
  ends : ∀ keyword body, l ≠ .unterminated keyword body
  isAt : next.IsAt (before ++ l.text)
  context : next.context = cur.context.after l
  found : next.found = cur.found ++ declarationsFrom before [l]

/-- The scanner reads a lexeme, and goes on behind it. -/
def Reads (stage : Stage) (source : String) (before : List Char) (cur : Cursor) (l : Lexeme) :
    Prop :=
  ∃ next, run stage source cur = run stage source next ∧ cur.Follows before l next

section

variable {cur : Cursor}

/-- What is passed over is read, if it is no declaration. -/
theorem Passes.reads {l : Lexeme} (h : Passes stage source before cur l) (hcur : cur.IsAt before)
    (hl : l.keyword? = none) : Reads stage source before cur l := by
  have hne : ∀ m : Lexeme, m.keyword? ≠ none → l ≠ m := by
    rintro m hm rfl
    exact hm hl
  refine ⟨_, h, fun keyword body => hne _ (Option.some_ne_none keyword), hcur.move _, rfl, ?_⟩
  have hnone : declarationsFrom before [l] = [] :=
    declarationsFrom_cons fun keyword body semicolons => hne _ (Option.some_ne_none keyword)
  rw [hnone, List.append_nil]
  rfl

variable {w : List Char} {keyword : Keyword}

/-- A declaration that no semicolon ends is refused, with the line of its keyword. -/
theorem takeDeclaration_of_open {rest : List Char} (h : source.toList = before ++ w ++ rest)
    (hcur : cur.IsAt before) (hrest : ';' ∉ rest) :
    takeDeclaration stage source cur keyword (byteCount (before ++ w)) =
      .error (.refused (.unterminatedDeclaration stage keyword (before.count '\n' + 1))) := by
  have hline : source.toList = before ++ (w ++ rest) := by
    rw [h, List.append_assoc]
  rw [takeDeclaration, cut_end_eq h, hcur.pos, lineNumber_eq hline]
  dsimp only [bind, Except.bind]
  rw [find?_eq_none hrest]
  rfl

/-- A declaration is read with all semicolons at its end, and with the blanks in front of it. -/
theorem takeDeclaration_of_closed {body more : List Char}
    (h : source.toList = before ++ w ++ (body ++ ';' :: more)) (hcur : cur.IsAt before)
    (hbody : ';' ∉ body) :
    let stop := byteCount (before ++ w ++ body ++ ';' :: more.takeWhile (· == ';'))
    takeDeclaration stage source cur keyword (byteCount (before ++ w)) =
      .ok ⟨stop, ⟨false, true, cur.context.parenDepth⟩, stop, cur.found ++ [{
        keyword
        payload := String.ofList (trim body)
        start := byteCount (before.rdropWhile Outline.isIndent)
        stop }]⟩ := by
  intro stop
  have htake : (body ++ ';' :: more).takeWhile (· != ';') = body := by
    refine takeWhile_append_eq (fun c hc => ?_) fun c hc => ?_
    · rw [bne_iff_ne]
      exact fun heq => hbody (heq ▸ hc)
    · obtain rfl := Option.some.inj hc
      decide
  have hclosed : source.toList = (before ++ w ++ body ++ [';']) ++ more := by
    rw [h]
    simp only [List.append_assoc, List.singleton_append]
  have hstop : skipWhile source (· == ';') (byteCount (before ++ w ++ body) + 1) = stop := by
    have hskip := skipWhile_eq hclosed (tellsAscii_beq (a := ';') (by decide))
    rwa [byteCount_append _ [';'], List.append_assoc _ [';'], List.singleton_append] at hskip
  have hstart : indentStart source cur.lastEnd cur.pos =
      byteCount (before.rdropWhile Outline.isIndent) := by
    obtain ⟨front, mid, rfl, hlast, hfront⟩ := hcur.lastEnd
    rw [List.append_assoc] at h
    rw [hlast, hcur.pos, indentStart_eq h, rdropWhile_isIndent_append hfront]
  rw [takeDeclaration, cut_end_eq h]
  dsimp only [bind, Except.bind]
  rw [find?_eq_some (List.mem_append_right _ List.mem_cons_self), htake]
  dsimp only
  rw [← byteCount_append, hstop, cut_eq h, hstart]
  dsimp only
  rw [String.toList_ofList]
  rfl

/-- Behind a declaration the cursor has found the declaration. -/
theorem follows_declaration {body semicolons : List Char} (hw : keyword.word.toList = w)
    (hne : semicolons ≠ []) (hsemicolons : ∀ c ∈ semicolons, c = ';') :
    let stop := byteCount (before ++ w ++ body ++ semicolons)
    cur.Follows before (.declaration keyword body semicolons)
      ⟨stop, ⟨false, true, cur.context.parenDepth⟩, stop, cur.found ++ [{
        keyword
        payload := String.ofList (trim body)
        start := byteCount (before.rdropWhile Outline.isIndent)
        stop }]⟩ := by
  intro stop
  have htext : before ++ (Lexeme.declaration keyword body semicolons).text =
      before ++ w ++ body ++ semicolons := by
    rw [Lexeme.text, hw]
    simp only [List.append_assoc]
  refine ⟨fun _ _ h => by contradiction,
    ⟨?_, before ++ w ++ body ++ semicolons, [], ?_, rfl, fun c hc => ?_⟩, rfl, ?_⟩
  · rw [htext]
  · rw [htext, List.append_nil]
  · rw [List.getLast?_append_of_ne_nil _ hne] at hc
    rw [hsemicolons c (List.mem_of_getLast? hc)]
    decide
  · rw [declarationsFrom, declarationsFrom, hw]

end

/-! ## Words -/

section

variable {cur : Cursor} {w rest : List Char} (hword : IsWord w rest)
  (h : source.toList = before ++ (w ++ rest)) (hcur : cur.IsAt before)
include hword h hcur

/-- A word is skipped as far as it goes. -/
theorem skipWhile_word : skipWhile source isNamePart cur.pos = byteCount (before ++ w) := by
  obtain ⟨⟨c, cs, rfl, hc, hcs⟩, hrest⟩ := hword
  have hall : ∀ d ∈ c :: cs, isNamePart d :=
    List.forall_mem_cons.2 ⟨isNamePart_of_isNameStart hc, hcs⟩
  rw [hcur.pos, skipWhile_eq h (tellsAscii_of_lt fun _ => lt_of_isNamePart),
    takeWhile_append_eq hall hrest]

/-- A word that declares nothing is passed over. -/
theorem takeWord_of_none (hnone : cur.context.declares? w rest = none) :
    takeWord stage source cur =
      .ok (cur.move (byteCount (before ++ w)) (cur.context.after (.word w))) := by
  have hbehind : source.toList = before ++ w ++ rest := by
    rw [h, List.append_assoc]
  have hcut := cut_eq h
  rw [← hcur.pos] at hcut
  rw [takeWord, skipWhile_word hword h hcur, hcut]
  dsimp only [bind, Except.bind]
  cases hkeyword : Keyword.ofWord? (String.ofList w) with
  | none => rfl
  | some keyword =>
    have hno : ¬ (cur.context.atBoundary && rest.head?.any isKeywordGap) := by
      intro hyes
      rw [Context.declares?, if_pos hyes, hkeyword] at hnone
      contradiction
    dsimp only
    rw [any_getElem?_sourceOctets hbehind (tellsAscii_of_lt fun _ => lt_of_isKeywordGap),
      if_neg hno]
    rfl

/-- A word that is a keyword where a declaration begins is read as a declaration. -/
theorem takeWord_of_some {keyword : Keyword}
    (hsome : cur.context.declares? w rest = some keyword) :
    takeWord stage source cur =
      takeDeclaration stage source cur keyword (byteCount (before ++ w)) := by
  have hbehind : source.toList = before ++ w ++ rest := by
    rw [h, List.append_assoc]
  have hcut := cut_eq h
  rw [← hcur.pos] at hcut
  rw [Context.declares?] at hsome
  split at hsome
  · next hyes =>
    rw [takeWord, skipWhile_word hword h hcur, hcut]
    dsimp only [bind, Except.bind]
    rw [hsome]
    dsimp only
    rw [any_getElem?_sourceOctets hbehind (tellsAscii_of_lt fun _ => lt_of_isKeywordGap),
      if_pos hyes]
  · contradiction

end

/-- The scanner reads a lexeme and goes on behind it, or it stops at a declaration that has no
end. -/
def ReadsOrStops (stage : Stage) (source : String) (before : List Char) (cur : Cursor)
    (l : Lexeme) : Prop :=
  Reads stage source before cur l ∨ ∃ keyword body, l = .unterminated keyword body ∧
    run stage source cur =
      .error (.refused (.unterminatedDeclaration stage keyword (before.count '\n' + 1)))

section

variable {cur : Cursor} {c : Char} (h : source.toList = before ++ c :: cs) (hcur : cur.IsAt before)
include h hcur

/-- A declaration behind its keyword is read, or it has no end. -/
theorem readsOrStops_declaration {w rest : List Char} {keyword : Keyword}
    (hparts : source.toList = before ++ w ++ rest) (hkeyword : keyword.word.toList = w)
    (hstep : step stage source cur =
      takeDeclaration stage source cur keyword (byteCount (before ++ w))) :
    ReadsOrStops stage source before cur (readDeclaration keyword rest).1 := by
  have hlt := pos_lt h hcur
  rw [readDeclaration]
  cases hclosing : rest.dropWhile (· != ';') with
  | nil =>
    have hopen : ';' ∉ rest := fun hmem =>
      absurd (List.dropWhile_eq_nil_iff.1 hclosing ';' hmem) (by decide)
    rw [takeDeclaration_of_open hparts hcur hopen] at hstep
    exact .inr ⟨keyword, rest, rfl, run_of_step_eq_error hlt hstep⟩
  | cons d more =>
    obtain rfl : d = ';' := by
      have hmem : d ∈ (rest.dropWhile (· != ';')).head? := by
        rw [hclosing]
        rfl
      simpa using not_of_mem_head?_dropWhile hmem
    obtain ⟨body, hbody⟩ : ∃ body, rest.takeWhile (· != ';') = body := ⟨_, rfl⟩
    have hopen : ';' ∉ body := fun hmem => by
      rw [← hbody] at hmem
      exact absurd (List.all_eq_true.1 List.all_takeWhile ';' hmem) (by decide)
    have hsemicolons : ∀ c ∈ more.takeWhile (· == ';'), c = ';' := fun c hc =>
      eq_of_beq (List.all_eq_true.1 List.all_takeWhile c hc)
    rw [← List.takeWhile_append_dropWhile (p := (· != ';')) (l := rest), hbody, hclosing]
      at hparts
    rw [takeDeclaration_of_closed hparts hcur hopen] at hstep
    rw [hbody]
    exact .inl ⟨_, run_of_step_eq_ok hlt hstep, follows_declaration hkeyword
      (List.cons_ne_nil _ _) (List.forall_mem_cons.2 ⟨rfl, hsemicolons⟩)⟩

/-- A word is read, or the declaration that it begins. -/
theorem readsOrStops_word (hname : isNameStart c) :
    ReadsOrStops stage source before cur (readWord cur.context c cs).1 := by
  obtain ⟨w, hw⟩ : ∃ w, c :: cs.takeWhile isNamePart = w := ⟨_, rfl⟩
  obtain ⟨rest, hrest⟩ : ∃ rest, cs.dropWhile isNamePart = rest := ⟨_, rfl⟩
  have hword : IsWord w rest := by
    rw [← hw, ← hrest]
    exact ⟨⟨c, _, rfl, hname, List.all_eq_true.1 List.all_takeWhile⟩,
      fun d hd => not_of_mem_head?_dropWhile hd⟩
  have hparts : source.toList = before ++ (w ++ rest) := by
    rw [h, ← hw, ← hrest, List.cons_append, List.takeWhile_append_dropWhile]
  have hdrop := drop_pos h hcur
  rw [octets_cons_of_lt (lt_of_isNamePart (isNamePart_of_isNameStart hname))] at hdrop
  have hstep : step stage source cur = takeWord stage source cur := step_name hdrop hname
  rw [readWord, hw, hrest]
  cases hdeclares : cur.context.declares? w rest with
  | none =>
    rw [takeWord_of_none hword hparts hcur hdeclares] at hstep
    exact .inl (Passes.reads (run_of_step_eq_ok (pos_lt h hcur) hstep) hcur rfl)
  | some keyword =>
    rw [takeWord_of_some hword hparts hcur hdeclares] at hstep
    rw [← List.append_assoc] at hparts
    exact readsOrStops_declaration h hcur hparts (Context.word_eq_of_declares? hdeclares) hstep

/-- Whatever lexeme begins with the next character is read, or it is a declaration that has no
end. -/
theorem readsOrStops_read :
    ReadsOrStops stage source before cur (read cur.context c cs).1 := by
  unfold read
  split
  · next hcomment =>
    rw [Bool.and_eq_true, beq_iff_eq, beq_iff_eq] at hcomment
    exact .inl ((passes_lineComment h hcur hcomment.1 hcomment.2).reads hcur rfl)
  next hline =>
  split
  · next hcomment =>
    rw [Bool.and_eq_true, beq_iff_eq, beq_iff_eq] at hcomment
    exact .inl ((passes_blockComment h hcur hcomment.1 hcomment.2).reads hcur rfl)
  next hblock =>
  split
  · next hdirective =>
    rw [Bool.and_eq_true, beq_iff_eq] at hdirective
    exact .inl ((passes_directive h hcur hdirective.1 hdirective.2).reads hcur rfl)
  next hhash =>
  split
  · next hname => exact readsOrStops_word h hcur hname
  · next hname =>
    rw [Bool.and_eq_true, beq_iff_eq, beq_iff_eq] at hline hblock
    rw [Bool.and_eq_true, beq_iff_eq] at hhash
    have hpasses : Passes stage source before cur (single c) :=
      passes_single h hcur hname (fun hc => ⟨fun hhead => hline ⟨hc, hhead⟩,
        fun hhead => hblock ⟨hc, hhead⟩⟩) fun hc hstart => hhash ⟨hc, hstart⟩
    exact .inl (hpasses.reads hcur (keyword?_single c))

end

end ShaderInterface.Source.Bytewise
