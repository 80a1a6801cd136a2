import ShaderInterface.Proofs.Rescan

/-!
# Where the placeholder stands

Code can take the place of the placeholder if no comment and no directive of the stripped source
reaches it, and if it stands behind a `#version` directive that nothing but blanks and comments
precede (`Stripped.Usable`). The place of a declaration is always usable. A source without
declarations is divided by a search of its own for the `#version` line, which knows neither
comments nor continued lines: `Stripped.usable_iff` says that the place is usable but for the two
ways to miss it that `Misplaced` lists.
-/

namespace ShaderInterface.Source

open Text

/-! ## Usable places -/

/-- A comment or a directive, in which code has no effect. -/
def Lexeme.isHidden : Lexeme → Bool
  | lineComment _ | blockComment _ | directive _ => true
  | _ => false

/-- Blanks and comments, which may stand in front of a `#version` directive. -/
def Lexeme.isSpacing : Lexeme → Bool
  | newline | blank _ | lineComment _ | blockComment _ => true
  | other c => isBlank c
  | _ => false

/-- The directive `text` of a source is a `#version` directive, and nothing but blanks and comments
stands before it. -/
def LeadingVersion (cs : List Char) (before : List Lexeme) (text : List Char) : Prop :=
  (∃ behind, lexemes .start cs = before ++ .directive text :: behind) ∧
    (∀ l ∈ before, l.isSpacing) ∧ "#version".toList <+: text

/-- The lexeme `l` behind `before` ends in front of the placeholder or begins behind it. -/
def Stripped.Apart (stripped : Stripped) (before : List Lexeme) (l : Lexeme) : Prop :=
  before.flatMap Lexeme.text ++ l.text <+: stripped.head.toList ∨
    stripped.head.toList ++ placeholder.toList <+: before.flatMap Lexeme.text

/-- Code can take the place of the placeholder. -/
structure Stripped.Usable (source : String) (stripped : Stripped) : Prop where
  /-- No comment and no directive reaches the placeholder. -/
  exposed : ∀ before l behind, lexemes .start stripped.text.toList = before ++ l :: behind →
    l.isHidden → stripped.Apart before l
  /-- The placeholder stands behind a leading `#version` directive. -/
  behindVersion : ∀ before text, LeadingVersion source.toList before text →
    before.flatMap Lexeme.text ++ text <+: stripped.head.toList

/-- The newline behind the line stands in a comment or in a directive, which a backslash
continues. -/
def EndsHidden (line rest : List Char) : Prop :=
  ∃ before l behind xs ys, lexemes .start (line ++ '\n' :: rest) = before ++ l :: behind ∧
    l.isHidden ∧ l.text = xs ++ '\n' :: ys ∧ before.flatMap Lexeme.text ++ xs = line

/-- The placeholder of a source without declarations misses its place. -/
inductive Misplaced (cs : List Char) : Prop
  /-- The `#version` line ends in a comment or in a directive. -/
  | inside {line rest : List Char} (hnothing : DeclaresNothing cs)
      (hversion : splitVersionLine? cs = some (line, rest)) (hhidden : EndsHidden line rest)
  /-- The `#version` directive stands behind a comment. -/
  | front {before : List Lexeme} {text : List Char} (hnothing : DeclaresNothing cs)
      (hversion : splitVersionLine? cs = none) (hleading : LeadingVersion cs before text)

/-! ## Places between lexemes -/

/-- A lexeme of two rows stands in the first or in the second. -/
theorem mem_rows {as bs before behind : List Lexeme} {l : Lexeme}
    (h : as ++ bs = before ++ l :: behind) :
    (∃ back, as = before ++ l :: back) ∨ ∃ mid, before = as ++ mid ∧ bs = mid ++ l :: behind := by
  rcases List.append_eq_append_iff.1 h with ⟨mid, hbefore, hbs⟩ | ⟨back, has, hback⟩
  · exact .inr ⟨mid, hbefore, hbs⟩
  · cases back with
    | nil => exact .inr ⟨[], by simpa using has.symm, by simpa using hback.symm⟩
    | cons m back =>
      obtain ⟨rfl, rfl⟩ := List.cons.inj hback
      exact .inl ⟨back, has⟩

/-- A placeholder that is read by itself is apart from all comments and directives. -/
theorem Stripped.apart_of_lexemes {stripped : Stripped} {pre post : List Lexeme}
    (hpre : pre.flatMap Lexeme.text = stripped.head.toList)
    (h : lexemes .start stripped.text.toList = pre ++ (placeholderLine ++ post))
    {before behind : List Lexeme} {l : Lexeme}
    (hsplit : lexemes .start stripped.text.toList = before ++ l :: behind) (hl : l.isHidden) :
    stripped.Apart before l := by
  rw [h] at hsplit
  rcases mem_rows hsplit with ⟨back, rfl⟩ | ⟨mid, rfl, hmid⟩
  · left
    rw [← hpre]
    exact ⟨back.flatMap Lexeme.text, by simp⟩
  · rcases mem_rows hmid with ⟨back, hback⟩ | ⟨mid', rfl, -⟩
    · have hmem : l ∈ placeholderLine := by
        rw [hback]
        exact List.mem_append_right mid List.mem_cons_self
      have hnone : ∀ l ∈ placeholderLine, l.isHidden = false := by decide
      exact absurd (hnone l hmem) (by simp [hl])
    · right
      refine ⟨'\n' :: mid'.flatMap Lexeme.text, ?_⟩
      simp [hpre, placeholderText]

/-- Behind lexemes that fit in front of it, the placeholder is read by itself. -/
theorem lexemes_append_placeholder {pre : List Lexeme} {tail : List Char}
    (h : Everywhere Fits [] (placeholderText ++ tail) pre) :
    lexemes .start (pre.flatMap Lexeme.text ++ (placeholderText ++ tail)) =
      pre ++ (placeholderLine ++ lexemes (.behind (pre ++ placeholderLine)) tail) := by
  have hboth : Everywhere Fits [] tail (pre ++ placeholderLine) :=
    everywhere_append.2 ⟨h, everywhere_fits_placeholderLine _ tail⟩
  have hread := lexemes_append hboth
  rw [List.flatMap_append, flatMap_text_placeholderLine, List.append_assoc, List.append_assoc]
    at hread
  exact hread

/-! ## The place of a declaration -/

/-- In front of the first declaration stand lexemes that make up the lead. -/
theorem Outline.exists_lead_eq {ls : List Lexeme} (hls : ∀ l ∈ ls, l.text ≠ [])
    (hends : Terminated ls) (hcuts : (ofLexemes ls).cuts ≠ []) :
    ∃ pre post, ls = pre ++ post ∧ beginsCut post ∧ (∀ l ∈ pre, l.keyword? = none) ∧
      pre.flatMap Lexeme.text = (ofLexemes ls).lead := by
  induction ls with
  | nil => exact absurd rfl hcuts
  | cons l ls ih =>
    by_cases hcut : beginsCut (l :: ls)
    · exact ⟨[], l :: ls, rfl, hcut, by simp, ((beginsCut_iff hls).1 hcut).1.symm⟩
    · have htext := addLexeme_of_not_beginsCut (List.forall_mem_cons.1 hls).2 hcut
      rw [ofLexemes_cons, htext] at hcuts
      obtain ⟨pre, post, rfl, hpost, hpre, hlead⟩ :=
        ih (List.forall_mem_cons.1 hls).2 hends.of_cons hcuts
      refine ⟨l :: pre, post, rfl, hpost, ?_, ?_⟩
      · exact List.forall_mem_cons.2 ⟨keyword?_of_not_beginsCut hcut hends, hpre⟩
      · rw [ofLexemes_cons, htext, List.flatMap_cons, hlead]
        rfl

/-- Lexemes in front of a declaration fit in front of anything. -/
theorem Everywhere.of_beginsCut {before pre post : List Lexeme}
    (h : Everywhere Fits before [] (pre ++ post)) (hpost : beginsCut post)
    (hpre : ∀ l ∈ pre, l.keyword? = none) (tail : List Char) :
    Everywhere Fits before tail pre := by
  induction pre generalizing before with
  | nil => trivial
  | cons l pre ih =>
    obtain ⟨hl, hrest⟩ := h
    obtain ⟨hlnone, hprenone⟩ := List.forall_mem_cons.1 hpre
    refine ⟨?_, ih hrest hprenone⟩
    rw [List.append_nil] at hl
    cases pre with
    | nil => exact hl.of_beginsCut hrest hpost hlnone _ _
    | cons m pre =>
      obtain ⟨c, cs, htext⟩ := List.exists_cons_of_ne_nil hrest.1.text_ne_nil
      refine hl.congr (.refl _) id ?_
      simp [htext]

/-- No directive stands behind blanks and comments where a declaration begins. -/
theorem not_beginsCut_directive {mid behind : List Lexeme} {text : List Char}
    (hmid : ∀ l ∈ mid, l.isSpacing) : ¬ beginsCut (mid ++ .directive text :: behind) := by
  induction mid with
  | nil => exact Bool.false_ne_true
  | cons l mid ih =>
    obtain ⟨hl, hrest⟩ := List.forall_mem_cons.1 hmid
    cases l with
    | declaration keyword body semicolons => contradiction
    | blank c =>
      rw [List.cons_append, beginsCut, Bool.and_eq_true]
      exact fun h => ih hrest h.2
    | _ => exact Bool.false_ne_true

/-- Code can take the place of a declaration. -/
theorem Stripped.usable_ofOutline {source : String}
    (hends : Terminated (lexemes .start source.toList))
    (hcuts : (Outline.ofLexemes (lexemes .start source.toList)).cuts ≠ []) :
    (ofOutline (Outline.ofLexemes (lexemes .start source.toList))).Usable source := by
  have hfits := everywhere_fits_start source.toList
  obtain ⟨pre, post, hls, hpost, hpre, hlead⟩ :=
    Outline.exists_lead_eq hfits.text_ne_nil hends hcuts
  have hempty : (Outline.ofLexemes (lexemes .start source.toList)).cuts.isEmpty = false := by
    rwa [List.isEmpty_eq_false_iff]
  have hhead : (ofOutline (Outline.ofLexemes (lexemes .start source.toList))).head.toList =
      pre.flatMap Lexeme.text := by
    rw [ofOutline, hempty, hlead]
    exact String.toList_ofList
  have htext : ∃ tail, (ofOutline (Outline.ofLexemes (lexemes .start source.toList))).text.toList =
      pre.flatMap Lexeme.text ++ (placeholderText ++ tail) := by
    refine ⟨(Outline.ofLexemes (lexemes .start source.toList)).cuts.flatMap (·.2), ?_⟩
    rw [toList_text_ofOutline hcuts, Outline.without, hempty, hlead, List.append_assoc]
    rfl
  rw [hls] at hfits
  constructor
  · intro before l behind hsplit hl
    obtain ⟨tail, htail⟩ := htext
    have hread :=
      lexemes_append_placeholder (hfits.of_beginsCut hpost hpre (placeholderText ++ tail))
    rw [← htail] at hread
    exact apart_of_lexemes hhead.symm hread hsplit hl
  · rintro before text ⟨⟨behind, hsplit⟩, hspacing, -⟩
    rw [hls] at hsplit
    rcases mem_rows hsplit with ⟨back, rfl⟩ | ⟨mid, rfl, rfl⟩
    · rw [hhead]
      exact ⟨back.flatMap Lexeme.text, by simp [Lexeme.text]⟩
    · rw [List.forall_mem_append] at hspacing
      exact absurd hpost (not_beginsCut_directive hspacing.2)

/-! ## The place behind a `#version` line -/

/-- A comment or a directive that holds a line break holds the placeholder behind it, too. -/
theorem Fits.exists_hidden_insert {before : List Lexeme} {rest xs ys : List Char} {l : Lexeme}
    (h : Fits before rest l) (hl : l.isHidden) (htext : l.text = xs ++ '\n' :: ys) :
    ∃ m zs tail, m.isHidden ∧ Fits before tail m ∧
      m.text = xs ++ '\n' :: (placeholder.toList ++ zs) ∧
        m.text ++ tail = xs ++ ('\n' :: placeholderText ++ (ys ++ rest)) := by
  cases l with
  | lineComment text =>
    obtain rfl : text = xs ++ '\n' :: ys := htext
    obtain ⟨body, hbody, hnewline, -⟩ := h
    have hmem : '\n' ∈ '/' :: '/' :: body := by
      rw [← hbody]
      exact List.mem_append_right xs List.mem_cons_self
    simp [hnewline] at hmem
  | blockComment text =>
    obtain rfl : text = xs ++ '\n' :: ys := htext
    refine ⟨_, '\n' :: ys, rest, rfl, h.blockComment_insert, ?_, ?_⟩
    · simp [Lexeme.text, placeholderText]
    · simp [Lexeme.text]
  | directive text =>
    obtain rfl : text = xs ++ '\n' :: ys := htext
    obtain ⟨hopens, hhash, hcontinued, hlast⟩ := h.directive_front
    refine ⟨_, [], '\n' :: (ys ++ rest), rfl,
      fits_directive_continued hopens hhash hcontinued hlast _, ?_, ?_⟩
    · simp [Lexeme.text]
    · simp [Lexeme.text, placeholderText]
  | _ => contradiction

/-- Behind a line that ends in a comment or a directive, no code can take effect. -/
theorem not_usable_of_endsHidden {source : String} {stripped : Stripped} {line rest : List Char}
    (hhead : stripped.head.toList = line ++ ['\n'])
    (htext : stripped.text.toList = line ++ ('\n' :: placeholderText ++ rest))
    (hline : EndsHidden line rest) : ¬ stripped.Usable source := by
  obtain ⟨before, l, behind, xs, ys, hsplit, hhidden, hl, hline⟩ := hline
  have hfits := everywhere_fits_start (line ++ '\n' :: rest)
  have hall := flatMap_text_lexemes .start (line ++ '\n' :: rest)
  rw [hsplit] at hfits hall
  obtain ⟨hbefore, hlfits, -⟩ := everywhere_append.1 hfits
  obtain ⟨m, zs, tail, hm, hmfits, hmtext, hmtail⟩ := hlfits.exists_hidden_insert hhidden hl
  have hrest : ys ++ (behind.flatMap Lexeme.text ++ []) = rest := by
    rw [← hline, List.flatMap_append, List.flatMap_cons, hl] at hall
    simpa using hall
  -- the lexeme begins as before, so those in front of it are the same
  have hmhead : ((l :: behind).flatMap Lexeme.text ++ []).head? =
      ([m].flatMap Lexeme.text ++ tail).head? := by
    cases xs with
    | nil => simp [hl, hmtext]
    | cons x xs => simp [hl, hmtext]
  have hwhole : Everywhere Fits [] tail (before ++ [m]) :=
    everywhere_append.2 ⟨hbefore.congr_tail hmhead, hmfits, trivial⟩
  have hread := lexemes_append hwhole
  rw [List.flatMap_append, List.flatMap_singleton, List.append_assoc, hmtail, hrest,
    ← List.append_assoc, hline, Context.behind_nil, ← htext, List.append_assoc] at hread
  intro husable
  have hmark : placeholder.toList.length = 3 := rfl
  rcases husable.exposed before m _ hread hm with hends | hbegins
  · have hlength := hends.length_le
    rw [hhead, hmtext, ← hline] at hlength
    simp only [List.length_append, List.length_cons, List.length_nil] at hlength
    omega
  · have hlength := hbegins.length_le
    rw [hhead, ← hline] at hlength
    simp only [List.length_append, List.length_cons, List.length_nil] at hlength
    omega

/-- A keyword without an end takes the placeholder behind it. -/
theorem lexemes_unterminated_placeholder {before : List Lexeme} {keyword : Keyword}
    {body : List Char} (hbefore : Everywhere Fits [] (keyword.word.toList ++ body) before)
    (h : Fits before [] (.unterminated keyword body)) :
    lexemes .start
        (before.flatMap Lexeme.text ++ (keyword.word.toList ++ (body ++ placeholderText))) =
      before ++ [.unterminated keyword (body ++ placeholderText)] := by
  obtain ⟨hbegins, hbody, -⟩ := h
  have hhead : (body ++ placeholderText).head? = body.head? := by
    obtain ⟨c, hc, -⟩ := hbegins.1
    rw [List.head?_append, Option.mem_def.1 hc, Option.some_or]
  have hfits : Fits before [] (.unterminated keyword (body ++ placeholderText)) := by
    refine ⟨(beginsDeclaration_congr hhead).2 hbegins, ?_, rfl⟩
    simpa [placeholderText, placeholder] using hbody
  have hwhole : Everywhere Fits [] []
      (before ++ [.unterminated keyword (body ++ placeholderText)]) := by
    refine everywhere_append.2 ⟨hbefore.congr_tail ?_, hfits, trivial⟩
    obtain ⟨c, cs, hword, -⟩ := keyword.exists_toList_eq
    simp [Lexeme.text, hword]
  have hread := lexemes_append hwhole
  rw [lexemes_nil, List.append_nil, List.append_nil, List.flatMap_append,
    List.flatMap_singleton] at hread
  exact hread

/-- No comment and no directive reaches the placeholder behind a newline. -/
theorem apart_of_newline {stripped : Stripped} {line rest : List Char} {before : List Lexeme}
    (hhead : stripped.head.toList = line ++ ['\n'])
    (htext : stripped.text.toList = line ++ ('\n' :: placeholderText ++ rest))
    (hbefore : Everywhere Fits [] ['\n'] before) (hline : before.flatMap Lexeme.text = line)
    {front behind : List Lexeme} {l : Lexeme}
    (hsplit : lexemes .start stripped.text.toList = front ++ l :: behind) (hl : l.isHidden) :
    stripped.Apart front l := by
  have hpre : (before ++ [Lexeme.newline]).flatMap Lexeme.text = line ++ ['\n'] := by
    rw [← hline, List.flatMap_append]
    rfl
  have hfits : Everywhere Fits [] (placeholderText ++ rest) (before ++ [.newline]) :=
    everywhere_append.2 ⟨hbefore.congr_tail rfl, trivial, trivial⟩
  have hread := lexemes_append_placeholder hfits
  rw [hpre, List.append_assoc, List.singleton_append, ← List.cons_append, ← htext] at hread
  exact Stripped.apart_of_lexemes (hpre.trans hhead.symm) hread hsplit hl

/-- No comment and no directive reaches the placeholder behind a keyword without an end. -/
theorem apart_of_unterminated {stripped : Stripped} {line : List Char} {before : List Lexeme}
    {keyword : Keyword} {body : List Char}
    (hhead : stripped.head.toList = line ++ ['\n'])
    (htext : stripped.text.toList = line ++ ('\n' :: placeholderText))
    (hbefore : Everywhere Fits [] (keyword.word.toList ++ body) before)
    (hfits : Fits before [] (.unterminated keyword body))
    (hline : before.flatMap Lexeme.text ++ (keyword.word.toList ++ body) = line ++ ['\n'])
    {front behind : List Lexeme} {l : Lexeme}
    (hsplit : lexemes .start stripped.text.toList = front ++ l :: behind) (hl : l.isHidden) :
    stripped.Apart front l := by
  have hread := lexemes_unterminated_placeholder hbefore hfits
  have hall : stripped.text.toList =
      before.flatMap Lexeme.text ++ (keyword.word.toList ++ (body ++ placeholderText)) := by
    rw [htext, List.append_cons, ← hline]
    simp
  rw [hall, hread] at hsplit
  rcases mem_rows hsplit with ⟨back, rfl⟩ | ⟨mid, -, hmid⟩
  · left
    rw [hhead, ← hline]
    exact ⟨back.flatMap Lexeme.text ++ (keyword.word.toList ++ body), by simp⟩
  · have hmem : l ∈ [Lexeme.unterminated keyword (body ++ placeholderText)] := by
      rw [hmid]
      exact List.mem_append_right mid List.mem_cons_self
    rw [List.mem_singleton.1 hmem] at hl
    contradiction

/-- No comment and no directive reaches the placeholder behind a `#version` line that does not end
in one. -/
theorem apart_of_not_endsHidden {source : String} {stripped : Stripped} {line rest : List Char}
    (hnothing : DeclaresNothing source.toList)
    (hsource : source.toList = line ++ '\n' :: rest ∨ source.toList = line ∧ rest = [])
    (hhead : stripped.head.toList = line ++ ['\n'])
    (htext : stripped.text.toList = line ++ ('\n' :: placeholderText ++ rest))
    (hvisible : ¬ EndsHidden line rest)
    {front behind : List Lexeme} {l : Lexeme}
    (hsplit : lexemes .start stripped.text.toList = front ++ l :: behind) (hl : l.isHidden) :
    stripped.Apart front l := by
  have hfits := everywhere_fits_start (line ++ '\n' :: rest)
  have hall := flatMap_text_lexemes .start (line ++ '\n' :: rest)
  obtain ⟨before, m, after, xs, ys, hbreak, hm, hline, hafter⟩ := exists_lexeme_at hall
  have hmhidden : ¬ m.isHidden := fun hmhidden =>
    hvisible ⟨before, m, after, xs, ys, hbreak, hmhidden, hm, hline⟩
  have hmnothing : source.toList = line ++ '\n' :: rest → m.keyword? = none := by
    intro hcons
    rw [DeclaresNothing, hcons, hbreak] at hnothing
    exact hnothing m (List.mem_append_right before List.mem_cons_self)
  rw [hbreak] at hfits
  obtain ⟨hbefore, hmfits, -⟩ := everywhere_append.1 hfits
  rw [List.append_nil, List.nil_append] at hmfits
  rw [List.append_nil, List.flatMap_cons] at hbefore
  -- which lexeme ends the line
  by_cases hkeyword : m.keyword? = none
  · rcases hmfits.exists_eq_of_newline_mem hkeyword (by simp [hm]) with rfl | ⟨_, rfl⟩ | ⟨_, rfl⟩
    · obtain ⟨rfl, rfl⟩ := Lexeme.eq_nil_of_newline_text_eq hm
      rw [List.append_nil] at hline
      exact apart_of_newline hhead htext (hbefore.congr_tail rfl) hline hsplit hl
    · exact absurd rfl hmhidden
    · exact absurd rfl hmhidden
  · -- the source ends with the line, and a keyword stands in it
    obtain ⟨-, rfl⟩ := hsource.resolve_left fun hcons => hkeyword (hmnothing hcons)
    obtain ⟨rfl, hnil⟩ := List.append_eq_nil_iff.1 hafter
    rw [hnil] at hmfits hbefore
    rw [List.append_nil] at hbefore htext
    cases m with
    | declaration keyword body semicolons =>
      obtain ⟨-, -, hne, hsemicolons, -⟩ := hmfits
      have hlast := congrArg List.getLast? hm
      rw [Lexeme.text, List.getLast?_append, List.getLast?_eq_some_getLast hne,
        List.getLast?_concat, hsemicolons _ (List.getLast_mem hne), Option.some_or] at hlast
      exact absurd hlast (by decide)
    | unterminated keyword body =>
      refine apart_of_unterminated hhead htext hbefore hmfits ?_ hsplit hl
      rw [← hline, List.append_assoc, ← hm]
      rfl
    | _ => exact absurd rfl hkeyword

/-- A source that begins with a `#version` line begins with the `#` behind blanks. -/
theorem hash_of_splitVersionLine? {cs line rest : List Char}
    (h : splitVersionLine? cs = some (line, rest)) :
    (trimStart cs).head? = some '#' ∧ '#' ∈ line := by
  rw [splitVersionLine?] at h
  split at h
  · next hversion =>
    obtain ⟨rfl, -⟩ := Prod.mk.inj (Option.some.inj h)
    obtain ⟨tail, htail⟩ := hversion
    rw [← htail]
    exact ⟨rfl, List.mem_append_right _ List.mem_cons_self⟩
  · contradiction

/-- Blanks and comments are blank up to the first `/`. -/
theorem head?_trimStart_of_isSpacing {earlier before : List Lexeme} {tail : List Char}
    (hfits : Everywhere Fits earlier tail before) (h : ∀ l ∈ before, l.isSpacing) :
    ∀ c ∈ (trimStart (before.flatMap Lexeme.text)).head?, c = '/' := by
  induction before generalizing earlier with
  | nil =>
    intro c hc
    contradiction
  | cons l before ih =>
    obtain ⟨hl, hrest⟩ := hfits
    obtain ⟨hspacing, hbefore⟩ := List.forall_mem_cons.1 h
    have hskip : ∀ c : Char, isBlank c →
        trimStart ([c] ++ before.flatMap Lexeme.text) = trimStart (before.flatMap Lexeme.text) :=
      fun c hc => List.dropWhile_cons_of_pos hc
    have hslash : ∀ cs : List Char, trimStart ('/' :: cs) = '/' :: cs :=
      fun cs => List.dropWhile_cons_of_neg (by decide)
    rw [List.flatMap_cons]
    cases l with
    | newline =>
      rw [Lexeme.text, hskip '\n' rfl]
      exact ih hrest hbefore
    | blank c =>
      have hblanks : [' ', '\t', '\r'].all isBlank := rfl
      rw [Lexeme.text, hskip c (List.all_eq_true.1 hblanks c hl)]
      exact ih hrest hbefore
    | other c =>
      rw [Lexeme.text, hskip c hspacing]
      exact ih hrest hbefore
    | lineComment text =>
      obtain ⟨body, rfl, -⟩ := hl
      intro c hc
      rw [Lexeme.text, List.cons_append, hslash] at hc
      exact (Option.mem_some.1 hc).symm
    | blockComment text =>
      obtain ⟨body, rfl⟩ : ∃ body, text = '/' :: body := by
        obtain ⟨body, rfl, -⟩ | ⟨body, rfl, -⟩ := hl
        · exact ⟨_, rfl⟩
        · exact ⟨_, rfl⟩
      intro c hc
      rw [Lexeme.text, List.cons_append, hslash] at hc
      exact (Option.mem_some.1 hc).symm
    | _ => contradiction

/-- In front of a leading directive stand only blanks if the source begins with a `#` behind
blanks. -/
theorem isBlank_of_leading {cs tail : List Char} {before : List Lexeme}
    (hfits : Everywhere Fits [] tail before) (h : ∀ l ∈ before, l.isSpacing)
    (hcs : cs = before.flatMap Lexeme.text ++ tail) (hhash : (trimStart cs).head? = some '#') :
    ∀ c ∈ before.flatMap Lexeme.text, isBlank c := by
  have hslash := head?_trimStart_of_isSpacing hfits h
  rw [hcs, trimStart, List.dropWhile_append] at hhash
  split at hhash
  · next hnil => exact List.dropWhile_eq_nil_iff.1 (List.isEmpty_iff.1 hnil)
  · next hne =>
    obtain ⟨c, cs', hc⟩ := List.exists_cons_of_ne_nil fun hnil => hne (List.isEmpty_iff.2 hnil)
    rw [trimStart, hc] at hslash
    rw [hc] at hhash
    have hc' := hslash c rfl
    obtain rfl := Option.some.inj hhash
    exact absurd hc' (by decide)

/-- A `#version` line that does not end in a directive holds the whole directive. -/
theorem prefix_of_not_endsHidden {cs line rest text : List Char} {before : List Lexeme}
    (hversion : splitVersionLine? cs = some (line, rest))
    (hcs : cs = line ++ '\n' :: rest ∨ cs = line ∧ rest = [])
    (hvisible : ¬ EndsHidden line rest)
    (hleading : LeadingVersion cs before text) :
    before.flatMap Lexeme.text ++ text <+: line ++ ['\n'] := by
  obtain ⟨⟨behind, hsplit⟩, hspacing, -⟩ := hleading
  obtain ⟨hhash, hmem⟩ := hash_of_splitVersionLine? hversion
  have hfits := everywhere_fits_start cs
  have hall := flatMap_text_lexemes .start cs
  rw [hsplit] at hfits hall
  have hbefore := (everywhere_append.1 hfits).1
  have htext : cs = before.flatMap Lexeme.text ++ (text ++ behind.flatMap Lexeme.text) := by
    rw [← hall]
    simp [Lexeme.text]
  rw [List.append_nil] at hbefore
  have hblank := isBlank_of_leading hbefore hspacing htext hhash
  rcases hcs with hcs | ⟨rfl, -⟩
  · rw [hcs] at htext
    rcases List.append_eq_append_iff.1 htext with ⟨as, has, -⟩ | ⟨as, rfl, has⟩
    · -- the line holds a `#`, so it does not end in front of the directive
      rw [has] at hblank
      exact absurd (hblank '#' (List.mem_append_left as hmem)) (by decide)
    · rcases List.append_eq_append_iff.1 has with ⟨bs, rfl, -⟩ | ⟨bs, rfl, hbs⟩
      · exact ⟨bs ++ ['\n'], by simp⟩
      · cases bs with
        | nil => exact ⟨['\n'], by simp⟩
        | cons b bs =>
          obtain ⟨rfl, -⟩ := List.cons.inj hbs
          rw [hcs] at hsplit
          exact absurd ⟨before, _, behind, as, bs, hsplit, rfl, rfl, rfl⟩ hvisible
  · exact ⟨behind.flatMap Lexeme.text ++ ['\n'], by rw [htext]; simp⟩

/-! ## All sources -/

/-- At the beginning of a source code can take effect, but it stands in front of all directives. -/
theorem Stripped.usable_front_iff {source : String} {stripped : Stripped}
    (hhead : stripped.head.toList = [])
    (htext : stripped.text.toList = placeholderText ++ source.toList) :
    stripped.Usable source ↔ ∀ before text, ¬ LeadingVersion source.toList before text := by
  have hread := @lexemes_append_placeholder [] source.toList trivial
  rw [List.flatMap_nil, List.nil_append, List.nil_append, ← htext] at hread
  constructor
  · intro husable before text hleading
    have hprefix := husable.behindVersion before text hleading
    rw [hhead, List.prefix_nil] at hprefix
    obtain ⟨-, -, hname⟩ := hleading
    rw [(List.append_eq_nil_iff.1 hprefix).2] at hname
    exact absurd hname (by decide)
  · intro hnone
    refine ⟨fun before l behind hsplit hl => ?_, fun before text hleading => ?_⟩
    · exact @apart_of_lexemes _ [] _ hhead.symm hread _ _ _ hsplit hl
    · exact absurd hleading (hnone before text)

/-- In a source that declares nothing the placeholder is usable unless it is misplaced. -/
theorem Stripped.usable_ofBare_iff {source : String} (h : DeclaresNothing source.toList) :
    (ofBare source.toList).Usable source ↔ ¬ Misplaced source.toList := by
  have htext := toList_text_ofBare source.toList
  cases hversion : splitVersionLine? source.toList with
  | none =>
    rw [hversion] at htext
    have hhead : (ofBare source.toList).head.toList = [] := by
      rw [ofBare, hversion]
      rfl
    rw [usable_front_iff hhead htext]
    constructor
    · rintro hnone (⟨-, hsome, -⟩ | ⟨-, -, hleading⟩)
      · rw [hversion] at hsome
        contradiction
      · exact hnone _ _ hleading
    · intro hplaced before text hleading
      exact hplaced (.front h hversion hleading)
  | some parts =>
    obtain ⟨line, rest⟩ := parts
    rw [hversion] at htext
    have hhead : (ofBare source.toList).head.toList = line ++ ['\n'] := by
      rw [ofBare, hversion]
      exact String.toList_ofList
    obtain ⟨-, -, -, -, -, -, hsource⟩ := splitVersionLine?_eq_some hversion
    constructor
    · rintro husable (⟨-, hsome, hhidden⟩ | ⟨-, hnone, -⟩)
      · rw [hversion] at hsome
        obtain ⟨rfl, rfl⟩ := Prod.mk.inj (Option.some.inj hsome)
        exact not_usable_of_endsHidden hhead htext hhidden husable
      · rw [hversion] at hnone
        contradiction
    · intro hplaced
      have hvisible : ¬ EndsHidden line rest := fun hhidden => hplaced (.inside h hversion hhidden)
      constructor
      · intro before l behind hsplit hl
        exact apart_of_not_endsHidden h hsource hhead htext hvisible hsplit hl
      · intro before text hleading
        rw [hhead]
        exact prefix_of_not_endsHidden hversion hsource hvisible hleading

/-- Code can take the place of the placeholder exactly if the placeholder is not misplaced: no
comment and no directive reaches it, and it stands behind a leading `#version` directive. -/
theorem Stripped.usable_iff {stage : Stage} {source : String} {stripped : Stripped}
    (h : ofSource stage source = .ok stripped) :
    stripped.Usable source ↔ ¬ Misplaced source.toList := by
  obtain ⟨hends, rfl⟩ := ofSource_eq_ok h
  by_cases hnothing : DeclaresNothing source.toList
  · have hcuts := (Outline.cuts_eq_nil_iff hends).2 hnothing
    have hlead : (Outline.ofLexemes (lexemes .start source.toList)).lead = source.toList := by
      have htext := Outline.text_ofLexemes (lexemes .start source.toList)
      rw [Outline.text, hcuts, flatMap_text_lexemes] at htext
      exact (List.append_nil _).symm.trans htext
    rw [ofOutline, hcuts, hlead]
    exact usable_ofBare_iff hnothing
  · have hcuts : (Outline.ofLexemes (lexemes .start source.toList)).cuts ≠ [] := by
      rwa [Ne, Outline.cuts_eq_nil_iff hends]
    refine iff_of_true (usable_ofOutline hends hcuts) ?_
    rintro (⟨hdeclares, -, -⟩ | ⟨hdeclares, -, -⟩)
    · exact hnothing hdeclares
    · exact hnothing hdeclares

/-- A source without declarations whose `#version` directive goes on with a second line. -/
def continuedSource : String :=
  "#version 450 \\\ncore\nvoid main() \x7b\x7d\n"

/-- That source with the placeholder behind the first line. -/
def continuedStripped : Stripped where
  head := "#version 450 \\\n"
  tail := "\ncore\nvoid main() \x7b\x7d\n"
  declarations := []

/-- Nothing is cut out of the source. -/
theorem Stripped.ofSource_continuedSource :
    ofSource .vertex continuedSource = .ok continuedStripped := by
  decide +kernel

/-- The directive takes the placeholder with it. -/
theorem Stripped.not_usable_continuedSource :
    ofSource .vertex continuedSource = .ok continuedStripped ∧
      ¬ continuedStripped.Usable continuedSource := by
  refine ⟨ofSource_continuedSource, fun husable => ?_⟩
  have hread : lexemes .start continuedStripped.text.toList =
      [] ++ .directive "#version 450 \\\n@@@".toList ::
        (lexemes .start continuedStripped.text.toList).tail := by
    decide +kernel
  rcases husable.exposed [] _ _ hread rfl with hends | hbegins
  · exact absurd hends (by decide)
  · exact absurd hbegins (by decide)

/-- The source is one of those in which the placeholder is misplaced. -/
theorem Stripped.usable_iff_continuedSource :
    ofSource .vertex continuedSource = .ok continuedStripped ∧
      (continuedStripped.Usable continuedSource ↔ ¬ Misplaced continuedSource.toList) :=
  ⟨ofSource_continuedSource, usable_iff ofSource_continuedSource⟩

end ShaderInterface.Source
