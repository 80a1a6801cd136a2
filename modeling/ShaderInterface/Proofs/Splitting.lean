import ShaderInterface.Proofs.Fitting

/-!
# The reader splits by the grammar

A lexeme that fits is the one that is read (`read_eq_of_fits`), and every lexeme that is read fits.
So the lexemes of a source are its only split, which is what `isSplit_iff` says.
-/

namespace ShaderInterface.Source

open Text

/-! ## Comments and directives -/

/-- A line comment runs to the end of its line. -/
theorem read_lineComment (ctx : Context) {body rest : List Char} (hbody : '\n' ∉ body)
    (hrest : ∀ c ∈ rest.head?, c = '\n') :
    read ctx '/' ('/' :: (body ++ rest)) = (.lineComment ('/' :: '/' :: body), rest) := by
  have hall : ∀ c ∈ '/' :: body, (c != '\n') = true := by
    intro c hc
    rw [bne_iff_ne]
    rintro rfl
    exact hbody ((List.mem_cons.1 hc).resolve_left (by decide))
  have hend : ∀ c ∈ rest.head?, ¬ (c != '\n') = true := by
    intro c hc
    simpa using hrest c hc
  have htake := takeWhile_append_eq hall hend
  have hdrop := dropWhile_append_eq hall hend
  rw [List.cons_append] at htake hdrop
  rw [read, if_pos (by rfl), htake, hdrop]

/-- In front of the body of a block comment the neighbours are related, too. -/
theorem isChain_insideComment_cons {cs : List Char} (h : ¬ ['*', '/'] <:+: cs) :
    (' ' :: cs).IsChain (insideComment · ·) := by
  rw [isChain_insideComment_iff, List.infix_cons_iff]
  rintro (hfront | hinside)
  · exact absurd (List.cons_prefix_cons.1 hfront).1 (by decide)
  · exact h hinside

/-- A block comment runs to its first `*/`. -/
theorem read_blockComment (ctx : Context) {body : List Char} (rest : List Char)
    (hbody : ¬ ['*', '/'] <:+: body ++ ['*']) :
    read ctx '/' ('*' :: (body ++ ['*', '/'] ++ rest)) =
      (.blockComment ('/' :: '*' :: (body ++ ['*', '/'])), rest) := by
  have hmeet : ∀ c ∈ ('/' :: rest).head?, ∀ b ∈ (' ' :: (body ++ ['*'])).getLast?,
      ¬ insideComment b c := by
    intro c hc b hb
    rw [← List.cons_append, List.getLast?_concat] at hb
    obtain rfl := Option.mem_some.1 hc
    obtain rfl := Option.mem_some.1 hb
    decide
  have hspan := spanNeighbours_append_eq (isChain_insideComment_cons hbody) hmeet
  have htext : body ++ ['*', '/'] ++ rest = body ++ ['*'] ++ '/' :: rest := by simp
  rw [read, if_neg (by simp), if_pos (by rfl), List.tail_cons, readBlockComment, htext, hspan]
  simp

/-- A block comment without a `*/` runs to the end. -/
theorem read_blockComment_of_open (ctx : Context) {body : List Char}
    (hbody : ¬ ['*', '/'] <:+: body) :
    read ctx '/' ('*' :: body) = (.blockComment ('/' :: '*' :: body), []) := by
  have hspan : spanNeighbours insideComment ' ' (body ++ []) = (body, []) :=
    spanNeighbours_append_eq (isChain_insideComment_cons hbody) nofun
  rw [List.append_nil] at hspan
  rw [read, if_neg (by simp), if_pos (by rfl), List.tail_cons, readBlockComment, hspan]
  simp

/-- A directive runs to the first newline that nothing continues. -/
theorem read_directive {ctx : Context} (hctx : ctx.lineStart) {body rest : List Char}
    (hbody : ∀ front back, '#' :: body = front ++ '\n' :: back → front.getLast? = some '\\')
    (hrest : ∀ c ∈ rest.head?, c = '\n' ∧ ('#' :: body).getLast? ≠ some '\\') :
    read ctx '#' (body ++ rest) = (.directive ('#' :: body), rest) := by
  have hchain := (isChain_insideDirective_iff (by decide)).2 hbody
  have hmeet : ∀ c ∈ rest.head?, ∀ b ∈ ('#' :: body).getLast?, ¬ insideDirective b c := by
    intro c hc b hb
    obtain ⟨rfl, hlast⟩ := hrest c hc
    have hb : b ≠ '\\' := fun he => hlast (he ▸ hb)
    simp [insideDirective, hb]
  have hspan := spanNeighbours_append_eq hchain hmeet
  rw [read, if_neg (by simp), if_neg (by simp), if_pos (by simp [hctx]), readDirective, hspan]

/-! ## Words and declarations -/

/-- What begins an identifier is read as a word. -/
theorem read_name (ctx : Context) {c : Char} (hc : isNameStart c) (cs : List Char) :
    read ctx c cs = readWord ctx c cs := by
  have hslash : (c == '/') = false := by
    rw [beq_eq_false_iff_ne]
    rintro rfl
    exact absurd hc (by decide)
  have hhash : (c == '#') = false := by
    rw [beq_eq_false_iff_ne]
    rintro rfl
    exact absurd hc (by decide)
  rw [read, hslash, hhash, Bool.false_and, Bool.false_and, Bool.false_and, if_neg (by decide),
    if_neg (by decide), if_neg (by decide), if_pos hc]

/-- A word runs as far as it can. -/
theorem readWord_append {ctx : Context} {c : Char} {cs rest : List Char}
    (hcs : ∀ d ∈ cs, isNamePart d) (hrest : ∀ d ∈ rest.head?, ¬ isNamePart d) :
    readWord ctx c (cs ++ rest) = match ctx.declares? (c :: cs) rest with
      | some keyword => readDeclaration keyword rest
      | none => (.word (c :: cs), rest) := by
  have htake := takeWhile_append_eq hcs hrest
  have hdrop := dropWhile_append_eq hcs hrest
  cases hdeclares : ctx.declares? (c :: cs) rest with
  | none => simp [readWord, htake, hdrop, hdeclares]
  | some keyword => simp [readWord, htake, hdrop, hdeclares]

/-- A word that begins no declaration is read as a word. -/
theorem read_word {before : List Lexeme} {c : Char} {cs rest : List Char}
    (hword : IsWord (c :: cs) rest)
    (hbegins : ¬ ((∃ keyword : Keyword, keyword.word.toList = c :: cs) ∧
      BeginsDeclaration before rest)) :
    read (.behind before) c (cs ++ rest) = (.word (c :: cs), rest) := by
  obtain ⟨⟨_, _, h, hc, hcs⟩, hrest⟩ := hword
  obtain ⟨rfl, rfl⟩ := List.cons.inj h
  rw [read_name _ hc, readWord_append hcs hrest]
  cases hdeclares : (Context.behind before).declares? (c :: cs) rest with
  | none => rfl
  | some keyword =>
    obtain ⟨hkeyword, hrest⟩ := Context.declares?_behind.1 hdeclares
    exact absurd ⟨⟨keyword, hkeyword⟩, hrest⟩ hbegins

/-- The word of a keyword is an identifier. -/
theorem Keyword.exists_toList_eq (keyword : Keyword) :
    ∃ c cs, keyword.word.toList = c :: cs ∧ isNameStart c ∧ ∀ d ∈ cs, isNamePart d := by
  cases keyword with
  | attrib => exact ⟨'a', "ttribute".toList, rfl, rfl, List.all_eq_true.1 rfl⟩
  | varying => exact ⟨'v', "arying".toList, rfl, rfl, List.all_eq_true.1 rfl⟩
  | output => exact ⟨'o', "ut".toList, rfl, rfl, List.all_eq_true.1 rfl⟩
  | uniform => exact ⟨'u', "niform".toList, rfl, rfl, List.all_eq_true.1 rfl⟩

/-- Where a declaration begins, the keyword is a whole word. -/
theorem BeginsDeclaration.not_isNamePart {before : List Lexeme} {rest : List Char}
    (h : BeginsDeclaration before rest) : ∀ c ∈ rest.head?, ¬ isNamePart c := by
  obtain ⟨⟨d, hd, hgap⟩, -⟩ := h
  have hgaps : ['\t', '\n', '\x0c', '\r', ' '].all (!isNamePart ·) := rfl
  intro c hc
  rw [Option.mem_unique hc hd]
  simpa using List.all_eq_true.1 hgaps d hgap

/-- What a keyword begins is read as a declaration. -/
theorem read_keyword {before : List Lexeme} {keyword : Keyword} {c : Char} {cs rest : List Char}
    (hbegins : BeginsDeclaration before rest) (htext : keyword.word.toList ++ rest = c :: cs) :
    read (.behind before) c cs = readDeclaration keyword rest := by
  obtain ⟨b, bs, hword, hb, hbs⟩ := keyword.exists_toList_eq
  rw [hword, List.cons_append] at htext
  obtain ⟨rfl, rfl⟩ := List.cons.inj htext
  rw [read_name _ hb, readWord_append hbs hbegins.not_isNamePart,
    Context.declares?_behind.2 ⟨hword, hbegins⟩]

/-- A declaration runs behind the semicolons that end it. -/
theorem readDeclaration_append {keyword : Keyword} {body semicolons rest : List Char}
    (hbody : ';' ∉ body) (hne : semicolons ≠ []) (hsemicolons : ∀ c ∈ semicolons, c = ';')
    (hrest : ∀ c ∈ rest.head?, c ≠ ';') :
    readDeclaration keyword (body ++ (semicolons ++ rest)) =
      (.declaration keyword body semicolons, rest) := by
  obtain ⟨c, semicolons, rfl⟩ := List.exists_cons_of_ne_nil hne
  obtain ⟨rfl, hsemicolons⟩ := List.forall_mem_cons.1 hsemicolons
  have hall : ∀ c ∈ body, (c != ';') = true := by
    intro c hc
    rw [bne_iff_ne]
    rintro rfl
    exact hbody hc
  have hclosing : ∀ c ∈ (';' :: semicolons ++ rest).head?, ¬ (c != ';') = true := by
    intro c hc
    obtain rfl := Option.mem_some.1 hc
    decide
  have hsame : ∀ c ∈ ';' :: semicolons, (c == ';') = true := by
    simpa using hsemicolons
  have hend : ∀ c ∈ rest.head?, ¬ (c == ';') = true := by
    simpa using hrest
  rw [readDeclaration, takeWhile_append_eq hall hclosing, dropWhile_append_eq hall hclosing,
    takeWhile_append_eq hsame hend, dropWhile_append_eq hsame hend]
  rfl

/-- A declaration without an end runs to the end of the source. -/
theorem readDeclaration_of_open (keyword : Keyword) {body : List Char} (hbody : ';' ∉ body) :
    readDeclaration keyword body = (.unterminated keyword body, []) := by
  have hall : body.dropWhile (· != ';') = [] := by
    rw [List.dropWhile_eq_nil_iff]
    intro c hc
    rw [bne_iff_ne]
    rintro rfl
    exact hbody hc
  rw [readDeclaration, hall]
  rfl

/-! ## All lexemes -/

/-- A character that begins nothing longer is read by itself. -/
theorem read_single {ctx : Context} {c : Char} {cs : List Char} (hname : ¬ isNameStart c)
    (hcomment : c = '/' → ∀ d ∈ cs.head?, d ≠ '/' ∧ d ≠ '*')
    (hdirective : c = '#' → ¬ ctx.lineStart) : read ctx c cs = (single c, cs) := by
  have hline : ¬ (c == '/' && cs.head? == some '/') = true := by
    rw [Bool.and_eq_true, beq_iff_eq, beq_iff_eq]
    rintro ⟨hc, hhead⟩
    exact (hcomment hc '/' hhead).1 rfl
  have hblock : ¬ (c == '/' && cs.head? == some '*') = true := by
    rw [Bool.and_eq_true, beq_iff_eq, beq_iff_eq]
    rintro ⟨hc, hhead⟩
    exact (hcomment hc '*' hhead).2 rfl
  have hhash : ¬ (c == '#' && ctx.lineStart) = true := by
    rw [Bool.and_eq_true, beq_iff_eq]
    rintro ⟨hc, hctx⟩
    exact hdirective hc hctx
  rw [read, if_neg hline, if_neg hblock, if_neg hhash, if_neg hname]

/-- Any other character is a lexeme without a meaning. -/
theorem single_eq_other {c : Char}
    (h : c ∉ ['\n', ' ', '\t', '\r', ';', '{', '}', '(', ')']) : single c = .other c := by
  simp only [List.mem_cons, List.not_mem_nil, or_false, not_or] at h
  simp [single, isLineBlank, isTerminator, h]

/-- A lexeme that fits is the one that is read. -/
theorem read_eq_of_fits {before : List Lexeme} {l : Lexeme} {rest : List Char} {c : Char}
    {cs : List Char} (hfits : Fits before rest l) (htext : l.text ++ rest = c :: cs) :
    read (.behind before) c cs = (l, rest) := by
  cases l with
  | newline =>
    obtain ⟨rfl, rfl⟩ := List.cons.inj htext
    exact read_single (by decide) (by simp) (by simp)
  | openParen =>
    obtain ⟨rfl, rfl⟩ := List.cons.inj htext
    exact read_single (by decide) (by simp) (by simp)
  | closeParen =>
    obtain ⟨rfl, rfl⟩ := List.cons.inj htext
    exact read_single (by decide) (by simp) (by simp)
  | blank b =>
    obtain ⟨rfl, rfl⟩ := List.cons.inj htext
    have hb : b = ' ' ∨ b = '\t' ∨ b = '\r' := by simpa [Fits] using hfits
    rcases hb with rfl | rfl | rfl <;> exact read_single (by decide) (by simp) (by simp)
  | terminator b =>
    obtain ⟨rfl, rfl⟩ := List.cons.inj htext
    have hb : b = ';' ∨ b = '{' ∨ b = '}' := by simpa [Fits] using hfits
    rcases hb with rfl | rfl | rfl <;> exact read_single (by decide) (by simp) (by simp)
  | other b =>
    obtain ⟨rfl, rfl⟩ := List.cons.inj htext
    obtain ⟨hmem, hname, hcomment, hdirective⟩ := hfits
    have hline : b = '#' → ¬ (Context.behind before).lineStart := by
      rwa [Context.lineStart_behind]
    exact (read_single hname hcomment hline).trans (by rw [single_eq_other hmem])
  | lineComment text =>
    obtain ⟨body, rfl, hbody, hrest⟩ := hfits
    obtain ⟨rfl, rfl⟩ := List.cons.inj htext
    exact read_lineComment _ hbody hrest
  | blockComment text =>
    obtain ⟨body, rfl, hbody⟩ | ⟨body, rfl, hbody, rfl⟩ := hfits
    · obtain ⟨rfl, rfl⟩ := List.cons.inj htext
      exact read_blockComment _ rest hbody
    · obtain ⟨rfl, hcs⟩ := List.cons.inj htext
      have hcs : cs = '*' :: body := by
        rw [← hcs]
        exact List.append_nil _
      rw [hcs]
      exact read_blockComment_of_open _ hbody
  | directive text =>
    obtain ⟨hline, hhash, hbody, hrest⟩ := hfits
    obtain ⟨body, rfl⟩ := List.head?_eq_some_iff.1 hhash
    obtain ⟨rfl, rfl⟩ := List.cons.inj htext
    exact read_directive ((Context.lineStart_behind before).2 hline) hbody hrest
  | word w =>
    obtain ⟨hword, hbegins⟩ := hfits
    obtain ⟨⟨d, ds, rfl, -⟩, -⟩ := id hword
    obtain ⟨rfl, rfl⟩ := List.cons.inj htext
    exact read_word hword hbegins
  | declaration keyword body semicolons =>
    obtain ⟨hbegins, hbody, hne, hsemicolons, hrest⟩ := hfits
    rw [Lexeme.text, List.append_assoc, List.append_assoc] at htext
    have hhead : (body ++ (semicolons ++ rest)).head? = body.head? := by
      obtain ⟨d, hd, -⟩ := hbegins.1
      rw [List.head?_append, Option.mem_def.1 hd, Option.some_or]
    rw [read_keyword ((beginsDeclaration_congr hhead).2 hbegins) htext,
      readDeclaration_append hbody hne hsemicolons hrest]
  | unterminated keyword body =>
    obtain ⟨hbegins, hbody, rfl⟩ := hfits
    rw [Lexeme.text, List.append_nil] at htext
    rw [read_keyword hbegins htext, readDeclaration_of_open keyword hbody]

/-- No lexeme that fits is empty. -/
theorem Fits.text_ne_nil {before : List Lexeme} {rest : List Char} {l : Lexeme}
    (h : Fits before rest l) : l.text ≠ [] := by
  cases l with
  | newline | openParen | closeParen | blank _ | terminator _ | other _ =>
    exact List.cons_ne_nil _ _
  | lineComment text =>
    obtain ⟨body, rfl, -⟩ := h
    exact List.cons_ne_nil _ _
  | blockComment text =>
    obtain ⟨body, rfl, -⟩ | ⟨body, rfl, -⟩ := h
    · exact List.cons_ne_nil _ _
    · exact List.cons_ne_nil _ _
  | directive text =>
    obtain ⟨body, rfl⟩ := List.head?_eq_some_iff.1 h.2.1
    exact List.cons_ne_nil _ _
  | word w =>
    obtain ⟨⟨⟨c, cs, rfl, -⟩, -⟩, -⟩ := h
    exact List.cons_ne_nil _ _
  | declaration keyword body semicolons =>
    obtain ⟨c, cs, hword, -⟩ := keyword.exists_toList_eq
    simp [Lexeme.text, hword]
  | unterminated keyword body =>
    obtain ⟨c, cs, hword, -⟩ := keyword.exists_toList_eq
    simp [Lexeme.text, hword]

/-! ## The lexemes of a text -/

/-- No lexemes that fit are empty. -/
theorem Everywhere.text_ne_nil {before ls : List Lexeme} {tail : List Char}
    (h : Everywhere Fits before tail ls) : ∀ l ∈ ls, l.text ≠ [] := by
  intro l hl
  obtain ⟨mid, behind, rfl⟩ := List.append_of_mem hl
  exact (everywhere_iff.1 h mid l behind rfl).text_ne_nil

/-- Lexemes that fit are read, and then what stands behind them. -/
theorem lexemes_append {before pre : List Lexeme} {tail : List Char}
    (h : Everywhere Fits before tail pre) :
    lexemes (.behind before) (pre.flatMap Lexeme.text ++ tail) =
      pre ++ lexemes (.behind (before ++ pre)) tail := by
  induction pre generalizing before with
  | nil =>
    rw [List.append_nil]
    rfl
  | cons l pre ih =>
    obtain ⟨hl, hpre⟩ := h
    -- the reader looks at the first character of `l`, and reads `l` since it fits
    obtain ⟨c, cs, htext⟩ := List.exists_cons_of_ne_nil hl.text_ne_nil
    have hread : read (.behind before) c (cs ++ (pre.flatMap Lexeme.text ++ tail)) =
        (l, pre.flatMap Lexeme.text ++ tail) := by
      apply read_eq_of_fits hl
      rw [htext]
      rfl
    rw [List.flatMap_cons, htext, List.append_assoc, List.cons_append, lexemes_cons, hread,
      ← Context.behind_concat, ih hpre, List.append_assoc]
    rfl

/-- The lexemes that are read fit. -/
theorem everywhere_fits_lexemes (before : List Lexeme) (cs : List Char) :
    Everywhere Fits before [] (lexemes (.behind before) cs) := by
  -- by induction on the length, since a lexeme takes more than one character at once
  induction hn : cs.length using Nat.strongRecOn generalizing before cs with
  | ind n ih =>
    cases cs with
    | nil =>
      rw [lexemes_nil]
      trivial
    | cons c cs =>
      rw [lexemes_cons, ← Context.behind_concat]
      refine ⟨?_, ih _ (hn ▸ length_read_lt _ c cs) _ _ rfl⟩
      rw [flatMap_text_lexemes, List.append_nil]
      exact fits_read before c cs

/-- The lexemes of a source fit. -/
theorem everywhere_fits_start (cs : List Char) : Everywhere Fits [] [] (lexemes .start cs) :=
  everywhere_fits_lexemes [] cs

/-- The lexemes of a split fit everywhere. -/
theorem isSplit_iff_everywhere {cs : List Char} {ls : List Lexeme} :
    IsSplit cs ls ↔ ls.flatMap Lexeme.text = cs ∧ Everywhere Fits [] [] ls := by
  simp only [IsSplit, everywhere_iff, List.nil_append, List.append_nil]

/-- The lexemes of a source are its only split. -/
theorem isSplit_iff {cs : List Char} {ls : List Lexeme} :
    IsSplit cs ls ↔ ls = lexemes .start cs := by
  rw [isSplit_iff_everywhere]
  constructor
  · rintro ⟨rfl, hfits⟩
    have hread := lexemes_append hfits
    rw [List.append_nil, lexemes_nil, List.append_nil] at hread
    exact hread.symm
  · rintro rfl
    exact ⟨flatMap_text_lexemes .start cs, everywhere_fits_start cs⟩

/-- A source is split by its lexemes. -/
theorem isSplit_lexemes (cs : List Char) : IsSplit cs (lexemes .start cs) :=
  isSplit_iff.2 rfl

end ShaderInterface.Source
