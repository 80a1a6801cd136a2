import ShaderInterface.Proofs.Residue

/-!
# The placeholder in a source without declarations

A source that declares nothing takes the placeholder at its beginning, or behind the line of a
leading `#version` directive. A line break stands in front of the place, so nothing changes its
meaning but a directive that a backslash continues behind its first line, and a last word that is
a keyword and had nothing behind it.
-/

namespace ShaderInterface.Source

open Text

/-! ## Lexemes in another place -/

/-- Lexemes fit in front of any text that begins with the same character. -/
theorem Everywhere.congr_tail {before ls : List Lexeme} {tail tail' : List Char}
    (h : Everywhere Fits before tail ls) (htail : tail.head? = tail'.head?) :
    Everywhere Fits before tail' ls := by
  rw [everywhere_iff] at h ⊢
  intro mid l behind hls
  refine (h mid l behind hls).congr (.refl _) id ?_
  rw [List.head?_append, List.head?_append, htail]

/-- Lexemes fit behind others with the same meaning. -/
theorem Everywhere.congr_before {before before' ls : List Lexeme} {tail : List Char}
    (h : Everywhere Fits before tail ls) (hbefore : Follows before before')
    (hline : OpensLine before' → OpensLine before) : Everywhere Fits before' tail ls := by
  induction ls generalizing before before' with
  | nil => trivial
  | cons l ls ih =>
    refine ⟨h.1.congr hbefore hline rfl, ih h.2 (hbefore.concat l) ?_⟩
    rw [opensLine_concat, opensLine_concat]
    exact Or.imp_right (And.imp_right hline)

/-- Lexemes fit behind others with the same context. -/
theorem Everywhere.congr_behind {before before' ls : List Lexeme} {tail : List Char}
    (h : Everywhere Fits before tail ls) (hbehind : Context.behind before = .behind before') :
    Everywhere Fits before' tail ls := by
  have hline : OpensLine before ↔ OpensLine before' := by
    rw [← Context.lineStart_behind, ← Context.lineStart_behind, hbehind]
  have hfollows : Follows before before' := by
    refine ⟨?_, ?_, hline.1, fun h => .inl (hline.2 h)⟩
    · rw [← Context.parenDepth_behind, ← Context.parenDepth_behind, hbehind]
    · rw [← Context.opensStatement_behind, ← Context.opensStatement_behind, hbehind]
  exact h.congr_before hfollows hline.2

/-- Lexemes that fit and have no keyword make up a text that declares nothing. -/
theorem Everywhere.declaresNothing {ls : List Lexeme} (h : Everywhere Fits [] [] ls)
    (hls : ∀ l ∈ ls, l.keyword? = none) : DeclaresNothing (ls.flatMap Lexeme.text) := by
  rw [DeclaresNothing, ← isSplit_iff.1 (isSplit_iff_everywhere.2 ⟨rfl, h⟩)]
  exact hls

/-- Where a line begins, a statement begins. -/
theorem OpensLine.opensStatement {before : List Lexeme} (h : OpensLine before) :
    OpensStatement before := by
  rw [← Context.opensStatement_behind, Bool.or_eq_true]
  exact .inl ((Context.lineStart_behind before).2 h)

/-- Where a line begins outside parentheses, lexemes are as at the beginning of a source. -/
theorem lexemes_behind_of_opensLine {before : List Lexeme} (hline : OpensLine before)
    (hparens : openParens before = 0) (cs : List Char) :
    lexemes (.behind before) cs = lexemes .start cs := by
  have hfollows : Follows before [] :=
    ⟨hparens, iff_of_true hline.opensStatement opensStatement_nil, fun _ => opensLine_nil,
      fun _ => .inl hline⟩
  -- the lexemes read there fit at the beginning, too, and so they are those read there
  have hfits := (everywhere_fits_lexemes before cs).congr_before hfollows fun _ => hline
  have hread := lexemes_append hfits
  rw [List.append_nil, lexemes_nil, List.append_nil, flatMap_text_lexemes] at hread
  exact hread.symm

/-- Text behind lexemes that declare nothing declares what it does as a source of its own, if it
stands where a line begins outside parentheses. -/
theorem declaresNothing_append_iff {pre : List Lexeme} {tail : List Char}
    (hfits : Everywhere Fits [] tail pre) (hnone : ∀ l ∈ pre, l.keyword? = none)
    (hline : OpensLine pre) (hparens : openParens pre = 0) :
    DeclaresNothing (pre.flatMap Lexeme.text ++ tail) ↔ DeclaresNothing tail := by
  have hread := lexemes_append hfits
  rw [List.nil_append, lexemes_behind_of_opensLine hline hparens, Context.behind_nil] at hread
  rw [DeclaresNothing, hread, List.forall_mem_append, and_iff_right hnone, DeclaresNothing]

/-! ## Text behind a line break -/

/-- The first line of a directive that goes on begins it and ends with a backslash. -/
theorem Fits.directive_front {before : List Lexeme} {rest xs ys : List Char}
    (h : Fits before rest (.directive (xs ++ '\n' :: ys))) :
    OpensLine before ∧ xs.head? = some '#' ∧
      (∀ front back, xs = front ++ '\n' :: back → front.getLast? = some '\\') ∧
        xs.getLast? = some '\\' := by
  obtain ⟨hopens, hhash, hcontinued, -⟩ := h
  refine ⟨hopens, ?_, ?_, hcontinued xs ys rfl⟩
  · cases xs with
    | nil => exact absurd hhash (by simp)
    | cons x xs => exact hhash
  · rintro front back rfl
    exact hcontinued front (back ++ '\n' :: ys) (List.append_assoc ..)

/-- A directive that ends with a backslash goes on with the line of the placeholder. -/
theorem fits_directive_continued {before : List Lexeme} {text : List Char}
    (hline : OpensLine before) (hhash : text.head? = some '#')
    (htext : ∀ front back, text = front ++ '\n' :: back → front.getLast? = some '\\')
    (hlast : text.getLast? = some '\\') (rest : List Char) :
    Fits before ('\n' :: rest) (.directive (text ++ '\n' :: placeholder.toList)) := by
  refine ⟨hline, ?_, fun front back h => ?_, fun c hc => ⟨(Option.mem_some.1 hc).symm, ?_⟩⟩
  · rw [List.head?_append, hhash, Option.some_or]
  · rcases List.append_eq_append_iff.1 h with ⟨as, rfl, has⟩ | ⟨bs, rfl, hbs⟩
    · cases as with
      | nil => rwa [List.append_nil]
      | cons a as =>
        have hmem : '\n' ∈ placeholder.toList := by
          rw [(List.cons.inj has).2]
          exact List.mem_append_right as List.mem_cons_self
        exact absurd hmem (by decide)
    · cases bs with
      | nil => rwa [List.append_nil] at hlast
      | cons b bs =>
        obtain ⟨rfl, -⟩ := List.cons.inj hbs
        exact htext front bs rfl
  · rw [List.getLast?_append]
    show some '@' ≠ some '\\'
    decide

/-- A directive that goes on with the placeholder, and the newline behind it. -/
def continuedDirective (text : List Char) : List Lexeme :=
  [.directive (text ++ '\n' :: placeholder.toList), .newline]

/-- The line of the placeholder stands behind what the directive was before. -/
theorem flatMap_text_continuedDirective (text : List Char) :
    (continuedDirective text).flatMap Lexeme.text = text ++ '\n' :: placeholderText := by
  simp [continuedDirective, placeholderText, Lexeme.text]

/-- A directive declares nothing, however it goes on. -/
theorem keyword?_of_mem_continuedDirective (text : List Char) :
    ∀ l ∈ continuedDirective text, l.keyword? = none := by
  simp [continuedDirective, Lexeme.keyword?]

/-- A directive that goes on fits where it stood. -/
theorem everywhere_continuedDirective {before : List Lexeme} {text : List Char}
    (hbefore : Everywhere Fits [] text before) (hline : OpensLine before)
    (hhash : text.head? = some '#')
    (htext : ∀ front back, text = front ++ '\n' :: back → front.getLast? = some '\\')
    (hlast : text.getLast? = some '\\') (rest : List Char) :
    Everywhere Fits [] rest (before ++ continuedDirective text) := by
  have hdirective := fits_directive_continued hline hhash htext hlast rest
  refine everywhere_append.2 ⟨hbefore.congr_tail ?_, hdirective, trivial, trivial⟩
  rw [flatMap_text_continuedDirective, List.append_assoc, List.head?_append, hhash, Option.some_or]

/-- What follows a continued line of a directive outside parentheses declares what it declares as
a source of its own. -/
theorem declaresNothing_continuedDirective {before : List Lexeme} {text : List Char}
    (hbefore : Everywhere Fits [] text before) (hnone : ∀ l ∈ before, l.keyword? = none)
    (hline : OpensLine before) (hparens : openParens before = 0) (hhash : text.head? = some '#')
    (htext : ∀ front back, text = front ++ '\n' :: back → front.getLast? = some '\\')
    (hlast : text.getLast? = some '\\') (rest : List Char) :
    DeclaresNothing (before.flatMap Lexeme.text ++ text ++ ('\n' :: placeholderText ++ rest)) ↔
      DeclaresNothing rest := by
  have hfits := everywhere_continuedDirective hbefore hline hhash htext hlast rest
  have hkeywords := List.forall_mem_append.2 ⟨hnone, keyword?_of_mem_continuedDirective text⟩
  have hopens : OpensLine (before ++ continuedDirective text) := by
    rw [continuedDirective, List.append_cons, opensLine_concat]
    exact .inl rfl
  have hclosed : openParens (before ++ continuedDirective text) = 0 := by
    rw [openParens, List.foldl_append]
    exact hparens
  rw [← declaresNothing_append_iff hfits hkeywords hopens hclosed, List.flatMap_append,
    flatMap_text_continuedDirective]
  simp

/-! ## Comments -/

/-- The line of the placeholder does not end a comment. -/
theorem not_infix_insert {us vs : List Char} (hus : ¬ ['*', '/'] <:+: us)
    (hvs : ¬ ['*', '/'] <:+: vs) :
    ¬ ['*', '/'] <:+: us ++ ('\n' :: placeholderText ++ vs) := by
  rw [← isChain_insideComment_iff] at hus hvs ⊢
  have hmark : ('\n' :: placeholderText).IsChain (insideComment · ·) := by decide
  refine hus.append (hmark.append hvs ?_) ?_
  · intro b hb c _
    obtain rfl := Option.mem_some.1 hb
    rfl
  · intro b _ c hc
    obtain rfl := Option.mem_some.1 hc
    simp [insideComment]

/-- The line break of a comment stands behind the two characters that begin it. -/
theorem exists_of_comment_eq {xs ys body : List Char} (h : xs ++ '\n' :: ys = '/' :: '*' :: body) :
    ∃ us, xs = '/' :: '*' :: us ∧ us ++ '\n' :: ys = body := by
  match xs with
  | [] => exact absurd (List.cons.inj h).1 (by decide)
  | [_] => exact absurd (List.cons.inj (List.cons.inj h).2).1 (by decide)
  | a :: b :: us =>
    obtain ⟨rfl, hcons⟩ := List.cons.inj h
    obtain ⟨rfl, htail⟩ := List.cons.inj hcons
    exact ⟨us, rfl, htail⟩

/-- A comment that holds a line break may hold the line of the placeholder behind it. -/
theorem Fits.blockComment_insert {before : List Lexeme} {rest xs ys : List Char}
    (h : Fits before rest (.blockComment (xs ++ '\n' :: ys))) :
    Fits before rest (.blockComment (xs ++ ('\n' :: placeholderText ++ ys))) := by
  obtain ⟨body, htext, hbody⟩ | ⟨body, htext, hbody, rfl⟩ := h
  · obtain ⟨us, rfl, hus⟩ := exists_of_comment_eq htext
    -- the line break stands in front of the `*/` that ends the comment
    rcases List.append_eq_append_iff.1 hus with ⟨as, rfl, has⟩ | ⟨bs, -, hbs⟩
    · cases as with
      | nil => exact absurd (List.cons.inj has).1 (by decide)
      | cons a vs =>
        obtain ⟨rfl, rfl⟩ := List.cons.inj has
        refine .inl ⟨us ++ ('\n' :: placeholderText ++ vs), by simp, ?_⟩
        have hvs : ¬ ['*', '/'] <:+: us ++ ('\n' :: placeholderText ++ (vs ++ ['*'])) := by
          apply not_infix_insert
          · exact fun hus => hbody (hus.trans ⟨[], '\n' :: vs ++ ['*'], by simp⟩)
          · exact fun hvs => hbody (hvs.trans ⟨us ++ ['\n'], [], by simp⟩)
        simpa using hvs
    · have hmem : '\n' ∈ ['*', '/'] := by
        rw [hbs]
        exact List.mem_append_right bs List.mem_cons_self
      exact absurd hmem (by decide)
  · obtain ⟨us, rfl, rfl⟩ := exists_of_comment_eq htext
    refine .inr ⟨us ++ ('\n' :: placeholderText ++ ys), rfl, not_infix_insert ?_ ?_, rfl⟩
    · exact fun hus => hbody (hus.trans ⟨[], '\n' :: ys, by simp⟩)
    · exact fun hys => hbody (hys.trans ⟨us ++ ['\n'], [], by simp⟩)

/-- A comment without an end may hold the line of the placeholder at its end. -/
theorem Fits.blockComment_append {before : List Lexeme} {text : List Char}
    (h : Fits before [] (.blockComment text)) :
    Fits before ('\n' :: placeholderText) (.blockComment text) ∨
      Fits before [] (.blockComment (text ++ '\n' :: placeholderText)) := by
  obtain hclosed | ⟨body, rfl, hbody, -⟩ := h
  · exact .inl (.inl hclosed)
  · refine .inr (.inr ⟨body ++ '\n' :: placeholderText, rfl, ?_, rfl⟩)
    exact not_infix_insert hbody (by decide)

/-! ## The place of a character -/

/-- A character of a text stands in one of its lexemes. -/
theorem exists_lexeme_at {ls : List Lexeme} {front back : List Char} {c : Char}
    (h : ls.flatMap Lexeme.text = front ++ c :: back) :
    ∃ before l behind xs ys, ls = before ++ l :: behind ∧ l.text = xs ++ c :: ys ∧
      before.flatMap Lexeme.text ++ xs = front ∧ ys ++ behind.flatMap Lexeme.text = back := by
  induction ls generalizing front with
  | nil => exact absurd h.symm (List.append_ne_nil_of_right_ne_nil _ (List.cons_ne_nil _ _))
  | cons l ls ih =>
    rw [List.flatMap_cons] at h
    rcases List.append_eq_append_iff.1 h with ⟨as, rfl, has⟩ | ⟨bs, hl, hbs⟩
    · obtain ⟨before, m, behind, xs, ys, rfl, hm, rfl, hback⟩ := ih has
      exact ⟨l :: before, m, behind, xs, ys, rfl, hm, List.append_assoc .., hback⟩
    · cases bs with
      | nil =>
        have hnext : ls.flatMap Lexeme.text = [] ++ c :: back := hbs.symm
        obtain ⟨before, m, behind, xs, ys, rfl, hm, hfront, hback⟩ := ih hnext
        refine ⟨l :: before, m, behind, xs, ys, rfl, hm, ?_, hback⟩
        rw [List.flatMap_cons, List.append_assoc, hfront, List.append_nil, hl, List.append_nil]
      | cons b ys =>
        obtain ⟨rfl, rfl⟩ := List.cons.inj hbs
        exact ⟨[], l, ls, front, ys, rfl, hl, rfl, rfl⟩

/-! ## The three places -/

/-- The line of the placeholder changes nothing at the beginning of a source. -/
theorem DeclaresNothing.placeholder_front {cs : List Char} (h : DeclaresNothing cs) :
    DeclaresNothing (placeholderText ++ cs) := by
  have hfollows := (Follows.refl []).append_placeholderLine opensStatement_nil (.inl opensLine_nil)
  have hfits := (everywhere_fits_start cs).congr_before hfollows fun _ => opensLine_nil
  have hmark := everywhere_fits_placeholderLine [] ((lexemes .start cs).flatMap Lexeme.text ++ [])
  have hwhole : Everywhere Fits [] [] (placeholderLine ++ lexemes .start cs) :=
    everywhere_append.2 ⟨hmark, hfits⟩
  have hnone : ∀ l ∈ placeholderLine ++ lexemes .start cs, l.keyword? = none :=
    List.forall_mem_append.2 ⟨by decide, h⟩
  have hdeclares := hwhole.declaresNothing hnone
  rw [List.flatMap_append, flatMap_text_lexemes] at hdeclares
  exact hdeclares

/-- A line break that ends no declaration is a newline, or stands in a comment or a directive. -/
theorem Fits.exists_eq_of_newline_mem {before : List Lexeme} {rest : List Char} {l : Lexeme}
    (h : Fits before rest l) (hl : l.keyword? = none) (hmem : '\n' ∈ l.text) :
    l = .newline ∨ (∃ text, l = .blockComment text) ∨ ∃ text, l = .directive text := by
  have hsingle : ∀ {c : Char}, '\n' ∈ [c] → c = '\n' := fun hc => (List.mem_singleton.1 hc).symm
  cases l with
  | newline => exact .inl rfl
  | blockComment text => exact .inr (.inl ⟨text, rfl⟩)
  | directive text => exact .inr (.inr ⟨text, rfl⟩)
  | openParen => exact absurd hmem (by decide)
  | closeParen => exact absurd hmem (by decide)
  | blank c =>
    have hblank : c ∈ [' ', '\t', '\r'] := h
    rw [hsingle hmem] at hblank
    exact absurd hblank (by decide)
  | terminator c =>
    have hterminator : c ∈ [';', '{', '}'] := h
    rw [hsingle hmem] at hterminator
    exact absurd hterminator (by decide)
  | other c =>
    obtain rfl := hsingle hmem
    exact absurd h.1 (by decide)
  | lineComment text =>
    obtain ⟨body, rfl, hbody, -⟩ := h
    simp [Lexeme.text, hbody] at hmem
  | word w =>
    obtain ⟨⟨⟨c, cs, rfl, hc, hcs⟩, -⟩, -⟩ := h
    rcases List.mem_cons.1 hmem with rfl | hmem
    · exact absurd hc (by decide)
    · exact absurd (hcs '\n' hmem) (by decide)
  | declaration keyword body semicolons => exact absurd hl (Option.some_ne_none keyword)
  | unterminated keyword body => exact absurd hl (Option.some_ne_none keyword)

/-- The line of the placeholder may stand behind a newline. -/
theorem Everywhere.declaresNothing_newline {before behind : List Lexeme}
    (h : Everywhere Fits [] [] (before ++ .newline :: behind))
    (hls : ∀ l ∈ before ++ .newline :: behind, l.keyword? = none) :
    DeclaresNothing (before.flatMap Lexeme.text ++
      ('\n' :: placeholderText ++ behind.flatMap Lexeme.text)) := by
  obtain ⟨hbefore, -, hbehind⟩ := everywhere_append.1 h
  obtain ⟨hnone, -, hbehindnone⟩ := (List.forall_mem_append.1 hls).imp_right
    List.forall_mem_cons.1
  have hline : OpensLine (before ++ [.newline]) := opensLine_concat.2 (.inl rfl)
  have hfollows := (Follows.refl (before ++ [.newline])).append_placeholderLine
    hline.opensStatement (.inl hline)
  have hwhole : Everywhere Fits [] [] (before ++ ([.newline] ++ placeholderLine ++ behind)) := by
    refine everywhere_append.2 ⟨hbefore.congr_tail rfl, everywhere_append.2 ⟨?_, ?_⟩⟩
    · exact ⟨trivial, everywhere_fits_placeholderLine _ _⟩
    · rw [List.nil_append, ← List.append_assoc]
      exact hbehind.congr_before hfollows fun _ => hline
  have hkeywords : ∀ l ∈ before ++ ([.newline] ++ placeholderLine ++ behind), l.keyword? = none :=
    List.forall_mem_append.2 ⟨hnone, List.forall_mem_append.2 ⟨by decide, hbehindnone⟩⟩
  simpa [Lexeme.text] using hwhole.declaresNothing hkeywords

/-- The line of the placeholder may stand behind a line break in a comment. -/
theorem Everywhere.declaresNothing_blockComment {before behind : List Lexeme} {xs ys : List Char}
    (h : Everywhere Fits [] [] (before ++ .blockComment (xs ++ '\n' :: ys) :: behind))
    (hls : ∀ l ∈ before ++ .blockComment (xs ++ '\n' :: ys) :: behind, l.keyword? = none) :
    DeclaresNothing (before.flatMap Lexeme.text ++ xs ++
      ('\n' :: placeholderText ++ (ys ++ behind.flatMap Lexeme.text))) := by
  obtain ⟨hbefore, hl, hbehind⟩ := everywhere_append.1 h
  obtain ⟨hnone, -, hbehindnone⟩ := (List.forall_mem_append.1 hls).imp_right
    List.forall_mem_cons.1
  -- the comment held a line break before, so it is no other for what follows
  have hcontext : Context.behind (before ++ [.blockComment (xs ++ '\n' :: ys)]) =
      .behind (before ++ [.blockComment (xs ++ ('\n' :: placeholderText ++ ys))]) := by
    rw [Context.behind_concat, Context.behind_concat]
    simp [Context.after]
  have hwhole : Everywhere Fits [] []
      (before ++ .blockComment (xs ++ ('\n' :: placeholderText ++ ys)) :: behind) := by
    refine everywhere_append.2
      ⟨hbefore.congr_tail ?_, hl.blockComment_insert, hbehind.congr_behind hcontext⟩
    simp [Lexeme.text]
  have hkeywords := List.forall_mem_append.2 ⟨hnone, List.forall_mem_cons.2
    ⟨(rfl : (Lexeme.blockComment (xs ++ ('\n' :: placeholderText ++ ys))).keyword? = none),
      hbehindnone⟩⟩
  simpa [Lexeme.text] using hwhole.declaresNothing hkeywords

/-- Nothing stands beside the line break in a newline. -/
theorem Lexeme.eq_nil_of_newline_text_eq {xs ys : List Char}
    (h : newline.text = xs ++ '\n' :: ys) : xs = [] ∧ ys = [] := by
  rcases List.singleton_eq_append_iff.1 h with ⟨rfl, h⟩ | ⟨-, h⟩
  · exact ⟨rfl, (List.cons.inj h).2.symm⟩
  · exact absurd h (List.cons_ne_nil _ _)

/-- The line of the placeholder changes nothing behind a line break, unless a directive goes on
there. -/
theorem DeclaresNothing.placeholder_behind {line rest : List Char}
    (h : DeclaresNothing (line ++ '\n' :: rest)) :
    DeclaresNothing (line ++ ('\n' :: placeholderText ++ rest)) ∨
      ∃ before xs ys behind, lexemes .start (line ++ '\n' :: rest) =
        before ++ .directive (xs ++ '\n' :: ys) :: behind ∧
          before.flatMap Lexeme.text ++ xs = line := by
  have hfits := everywhere_fits_start (line ++ '\n' :: rest)
  have htext := flatMap_text_lexemes .start (line ++ '\n' :: rest)
  rw [DeclaresNothing] at h
  generalize lexemes .start (line ++ '\n' :: rest) = ls at hfits htext h
  obtain ⟨before, l, behind, xs, ys, rfl, hl, rfl, rfl⟩ := exists_lexeme_at htext
  obtain ⟨-, hlfits, -⟩ := everywhere_append.1 hfits
  have hlnone := h l (List.mem_append_right before List.mem_cons_self)
  -- which lexeme holds the line break
  rcases hlfits.exists_eq_of_newline_mem hlnone (by simp [hl]) with rfl | ⟨text, rfl⟩ | ⟨text, rfl⟩
  · left
    obtain ⟨rfl, rfl⟩ := Lexeme.eq_nil_of_newline_text_eq hl
    rw [List.append_nil, List.nil_append]
    exact hfits.declaresNothing_newline h
  · obtain rfl : text = xs ++ '\n' :: ys := hl
    exact .inl (hfits.declaresNothing_blockComment h)
  · obtain rfl : text = xs ++ '\n' :: ys := hl
    exact .inr ⟨before, xs, ys, behind, rfl, rfl⟩

/-- A line behind the last lexeme of a source declares nothing if the lexeme fits there, too. -/
theorem declaresNothing_concat {before : List Lexeme} {l : Lexeme}
    (hbefore : Everywhere Fits [] l.text before) (hnone : ∀ m ∈ before, m.keyword? = none)
    (hl : Fits before ('\n' :: placeholderText) l) (hlnone : l.keyword? = none) :
    DeclaresNothing ((before ++ [l]).flatMap Lexeme.text ++ '\n' :: placeholderText) := by
  obtain ⟨c, cs, htext⟩ := List.exists_cons_of_ne_nil hl.text_ne_nil
  have hwhole : Everywhere Fits [] [] (before ++ l :: .newline :: placeholderLine) := by
    refine everywhere_append.2 ⟨hbefore.congr_tail ?_, hl, trivial,
      everywhere_fits_placeholderLine _ _⟩
    rw [List.flatMap_cons, htext]
    rfl
  have hkeywords : ∀ m ∈ before ++ l :: .newline :: placeholderLine, m.keyword? = none :=
    List.forall_mem_append.2 ⟨hnone, List.forall_mem_cons.2 ⟨hlnone, by decide⟩⟩
  simpa [Lexeme.text] using hwhole.declaresNothing hkeywords

/-- A line behind a comment that ends a source declares nothing. -/
theorem declaresNothing_concat_blockComment {before : List Lexeme} {text : List Char}
    (hbefore : Everywhere Fits [] text before) (hnone : ∀ m ∈ before, m.keyword? = none)
    (hl : Fits before [] (.blockComment text)) :
    DeclaresNothing
      ((before ++ [Lexeme.blockComment text]).flatMap Lexeme.text ++ '\n' :: placeholderText) := by
  rcases hl.blockComment_append with hclosed | hopen
  · exact declaresNothing_concat hbefore hnone hclosed rfl
  · -- the comment has no end, so the line stands in it
    have hhead : text.head? = (text ++ '\n' :: placeholderText).head? := by
      obtain ⟨c, cs, htext⟩ := List.exists_cons_of_ne_nil hl.text_ne_nil
      obtain rfl : text = c :: cs := htext
      rfl
    have hwhole : Everywhere Fits [] []
        (before ++ [.blockComment (text ++ '\n' :: placeholderText)]) := by
      refine everywhere_append.2 ⟨hbefore.congr_tail ?_, hopen, trivial⟩
      rw [List.append_nil, List.flatMap_singleton]
      exact hhead
    have hkeywords := List.forall_mem_append.2 ⟨hnone, List.forall_mem_singleton.2
      (rfl : (Lexeme.blockComment (text ++ '\n' :: placeholderText)).keyword? = none)⟩
    simpa [Lexeme.text] using hwhole.declaresNothing hkeywords

/-- The line of the placeholder changes nothing at the end of a source, unless there is a keyword
that declares nothing because nothing stands behind it. -/
theorem DeclaresNothing.placeholder_end {cs : List Char} (h : DeclaresNothing cs) (hne : cs ≠ []) :
    DeclaresNothing (cs ++ '\n' :: placeholderText) ∨
      ∃ before, ∃ keyword : Keyword, lexemes .start cs = before ++ [.word keyword.word.toList] ∧
        openParens before = 0 ∧ OpensStatement before := by
  have hfits := everywhere_fits_start cs
  have htext := flatMap_text_lexemes .start cs
  rw [DeclaresNothing] at h
  generalize lexemes .start cs = ls at hfits htext h
  subst htext
  rcases List.eq_nil_or_concat' ls with rfl | ⟨before, l, rfl⟩
  · exact absurd rfl hne
  obtain ⟨hbefore, hl, -⟩ := everywhere_append.1 hfits
  obtain ⟨hnone, hlnone⟩ := (List.forall_mem_append.1 h).imp_right List.forall_mem_singleton.1
  rw [List.append_nil, List.flatMap_singleton] at hbefore
  have hend := fun hl => declaresNothing_concat hbefore hnone hl hlnone
  cases l with
  | newline | openParen | closeParen | blank _ | terminator _ => exact .inl (hend hl)
  | lineComment text =>
    obtain ⟨body, htext, hbody, -⟩ := hl
    exact .inl (hend ⟨body, htext, hbody, by simp⟩)
  | blockComment text => exact .inl (declaresNothing_concat_blockComment hbefore hnone hl)
  | directive text =>
    left
    obtain ⟨hline, hhash, htext, -⟩ := hl
    by_cases hlast : text.getLast? = some '\\'
    · have hwhole := everywhere_continuedDirective hbefore hline hhash htext hlast []
      have hdeclares := hwhole.declaresNothing
        (List.forall_mem_append.2 ⟨hnone, keyword?_of_mem_continuedDirective text⟩)
      rw [List.flatMap_append, flatMap_text_continuedDirective] at hdeclares
      simpa [Lexeme.text] using hdeclares
    · exact hend ⟨hline, hhash, htext, by simpa using hlast⟩
  | word w =>
    obtain ⟨⟨hw, -⟩, -⟩ := hl
    by_cases hdeclares : (∃ keyword : Keyword, keyword.word.toList = w) ∧
        BeginsDeclaration before ('\n' :: placeholderText)
    · obtain ⟨⟨keyword, rfl⟩, -, hparens, hstatement⟩ := hdeclares
      exact .inr ⟨before, keyword, rfl, hparens, hstatement⟩
    · have hnewline : ¬ isNamePart '\n' := by decide
      exact .inl (hend ⟨⟨hw, by simpa using hnewline⟩, hdeclares⟩)
  | other c =>
    obtain ⟨hc, hname, -, hdirective⟩ := hl
    exact .inl (hend ⟨hc, hname, by simp, hdirective⟩)
  | declaration keyword body semicolons => contradiction
  | unterminated keyword body => contradiction

/-- A keyword in front of a newline is no longer a word where a statement begins. -/
theorem not_declaresNothing_keyword {before : List Lexeme} {keyword : Keyword} {tail : List Char}
    (hbefore : Everywhere Fits [] (keyword.word.toList ++ '\n' :: tail) before)
    (hparens : openParens before = 0) (hstatement : OpensStatement before) :
    ¬ DeclaresNothing (before.flatMap Lexeme.text ++ (keyword.word.toList ++ '\n' :: tail)) := by
  have hbegins : BeginsDeclaration before ('\n' :: tail) :=
    ⟨⟨'\n', rfl, by decide⟩, hparens, hstatement⟩
  obtain ⟨c, cs, hword, hc, hcs⟩ := keyword.exists_toList_eq
  have hisword : IsWord (c :: cs) ('\n' :: tail) :=
    ⟨⟨c, cs, rfl, hc, hcs⟩, hbegins.not_isNamePart⟩
  have hkeyword := (keyword?_read hisword).2 ⟨hword, hbegins⟩
  have hread := lexemes_append hbefore
  rw [hword, List.cons_append, lexemes_cons, List.nil_append] at hread
  rw [DeclaresNothing, hword, List.cons_append, ← Context.behind_nil, hread]
  intro hnothing
  have hnone := hnothing _ (List.mem_append_right before List.mem_cons_self)
  rw [hkeyword] at hnone
  contradiction

end ShaderInterface.Source
