import Mathlib.Data.List.Induction
import Mathlib.Data.List.Infix
import ShaderInterface.Source.Declaration

/-!
# Grammar of shader sources

What the lexemes of a source are, said without a reader. `Fits before rest l` says of a lexeme `l`
that it may stand behind the lexemes `before` and in front of the text `rest`, and a source is
split if each of its pieces fits where it stands (`IsSplit`). What is read as a directive or a
declaration depends on the lexemes before it alone: on where the last line break and the last
significant lexeme stand, and on the parentheses.

`Context.behind` sums these lexemes up, and `lineStart_behind` and `atBoundary_behind` say what
its flags mean.
-/

namespace ShaderInterface.Source

open Text

namespace Lexeme

/-- Newlines, blanks, comments and directives stand between the others without a meaning. -/
def isTrivia : Lexeme → Bool
  | newline | blank _ | lineComment _ | blockComment _ | directive _ => true
  | _ => false

/-- A lexeme that divides lines: a newline, or a block comment that holds one. -/
def breaksLine : Lexeme → Bool
  | newline => true
  | blockComment text => '\n' ∈ text
  | _ => false

/-- A lexeme behind which a statement begins. -/
def endsStatement : Lexeme → Bool
  | terminator _ | declaration .. | unterminated .. => true
  | _ => false

/-- The parentheses that are open behind a lexeme, of which `depth` were open before it. -/
def depthBehind (depth : Nat) : Lexeme → Nat
  | openParen => depth + 1
  | closeParen => depth - 1
  | _ => depth

/-- Trivia opens and closes no parentheses. -/
theorem depthBehind_of_isTrivia {l : Lexeme} (h : l.isTrivia) (depth : Nat) :
    l.depthBehind depth = depth := by
  cases l with
  | openParen | closeParen => contradiction
  | _ => rfl

end Lexeme

/-! ## What came before -/

/-- Nothing but newlines, blanks, comments and directives stands behind the last line break, or
behind the beginning of the source. -/
def OpensLine (before : List Lexeme) : Prop :=
  ∃ earlier since, before = earlier ++ since ∧ (∀ l ∈ since, l.isTrivia) ∧
    ∀ l ∈ earlier.getLast?, l.breaksLine

/-- The last significant lexeme is absent, or ends a statement, or stands on an earlier line. -/
def OpensStatement (before : List Lexeme) : Prop :=
  ∃ earlier since, before = earlier ++ since ∧ (∀ l ∈ since, l.isTrivia) ∧
    ∀ l ∈ earlier.getLast?, ¬ l.isTrivia ∧ (l.endsStatement ∨ ∃ m ∈ since, m.breaksLine)

/-- The number of parentheses that are open; one that closes nothing counts for nothing. -/
def openParens (before : List Lexeme) : Nat :=
  before.foldl Lexeme.depthBehind 0

/-- A keyword in front of `rest` begins a declaration. -/
def BeginsDeclaration (before : List Lexeme) (rest : List Char) : Prop :=
  (∃ c ∈ rest.head?, c ∈ ['\t', '\n', '\x0c', '\r', ' ']) ∧ openParens before = 0 ∧
    OpensStatement before

/-- One lexeme more stands in the second part, or else there is no second part. -/
theorem concat_eq_append {before earlier since : List Lexeme} {l : Lexeme}
    (h : before ++ [l] = earlier ++ since) :
    (earlier = before ++ [l] ∧ since = []) ∨
      ∃ since', since = since' ++ [l] ∧ before = earlier ++ since' := by
  rcases List.eq_nil_or_concat' since with rfl | ⟨since', m, rfl⟩
  · exact .inl ⟨by rw [h, List.append_nil], rfl⟩
  · rw [← List.append_assoc] at h
    obtain ⟨hbefore, hl⟩ := List.append_inj' h rfl
    exact .inr ⟨since', by rw [hl], hbefore⟩

/-- One lexeme more may open or close a parenthesis. -/
theorem openParens_concat (before : List Lexeme) (l : Lexeme) :
    openParens (before ++ [l]) = l.depthBehind (openParens before) := by
  rw [openParens, openParens, List.foldl_concat]

/-- In front of a source a line begins. -/
theorem opensLine_nil : OpensLine [] :=
  ⟨[], [], rfl, nofun, nofun⟩

/-- A line begins behind a line break, and goes on beginning behind trivia. -/
theorem opensLine_concat {before : List Lexeme} {l : Lexeme} :
    OpensLine (before ++ [l]) ↔ l.breaksLine ∨ l.isTrivia ∧ OpensLine before := by
  constructor
  · rintro ⟨earlier, since, h, hsince, hearlier⟩
    obtain ⟨rfl, rfl⟩ | ⟨since, rfl, rfl⟩ := concat_eq_append h
    · exact .inl (hearlier l List.getLast?_concat)
    · rw [List.forall_mem_append] at hsince
      exact .inr ⟨hsince.2 l (List.mem_singleton_self l), earlier, since, rfl, hsince.1, hearlier⟩
  · rintro (hbreak | ⟨htrivia, earlier, since, rfl, hsince, hearlier⟩)
    · refine ⟨before ++ [l], [], (List.append_nil _).symm, nofun, ?_⟩
      simpa using hbreak
    · refine ⟨earlier, since ++ [l], List.append_assoc .., ?_, hearlier⟩
      exact List.forall_mem_append.2 ⟨hsince, List.forall_mem_singleton.2 htrivia⟩

/-- Trivia stands behind the last significant lexeme, if there is one. -/
theorem exists_last_significant (before : List Lexeme) :
    ∃ earlier since, before = earlier ++ since ∧ (∀ l ∈ since, l.isTrivia) ∧
      ∀ l ∈ earlier.getLast?, ¬ l.isTrivia := by
  induction before using List.reverseRecOn with
  | nil => exact ⟨[], [], rfl, nofun, nofun⟩
  | append_singleton before l ih =>
    by_cases htrivia : l.isTrivia
    · obtain ⟨earlier, since, rfl, hsince, hearlier⟩ := ih
      refine ⟨earlier, since ++ [l], List.append_assoc .., ?_, hearlier⟩
      exact List.forall_mem_append.2 ⟨hsince, List.forall_mem_singleton.2 htrivia⟩
    · refine ⟨before ++ [l], [], (List.append_nil _).symm, nofun, ?_⟩
      simpa using htrivia

/-- In front of a source a statement begins. -/
theorem opensStatement_nil : OpensStatement [] :=
  ⟨[], [], rfl, nofun, nofun⟩

/-- Behind trivia a statement begins if one began before, or if there is a line break. -/
theorem opensStatement_concat_trivia {before : List Lexeme} {l : Lexeme} (htrivia : l.isTrivia) :
    OpensStatement (before ++ [l]) ↔ l.breaksLine ∨ OpensStatement before := by
  constructor
  · rintro ⟨earlier, since, h, hsince, hearlier⟩
    obtain ⟨rfl, rfl⟩ | ⟨since, rfl, rfl⟩ := concat_eq_append h
    · exact absurd htrivia (hearlier l List.getLast?_concat).1
    · rw [List.forall_mem_append] at hsince
      by_cases hbreak : l.breaksLine
      · exact .inl hbreak
      · refine .inr ⟨earlier, since, rfl, hsince.1, fun k hk => ?_⟩
        simpa [or_and_right, exists_or, hbreak] using hearlier k hk
  · rintro (hbreak | ⟨earlier, since, rfl, hsince, hearlier⟩)
    · -- the break stands behind the last significant lexeme, whatever that is
      obtain ⟨earlier, since, rfl, hsince, hearlier⟩ := exists_last_significant before
      refine ⟨earlier, since ++ [l], List.append_assoc .., ?_, fun k hk => ⟨hearlier k hk, ?_⟩⟩
      · exact List.forall_mem_append.2 ⟨hsince, List.forall_mem_singleton.2 htrivia⟩
      · exact .inr ⟨l, List.mem_append_right _ (List.mem_singleton_self l), hbreak⟩
    · refine ⟨earlier, since ++ [l], List.append_assoc .., ?_, fun k hk => ?_⟩
      · exact List.forall_mem_append.2 ⟨hsince, List.forall_mem_singleton.2 htrivia⟩
      · obtain ⟨hk, hends⟩ := hearlier k hk
        exact ⟨hk, hends.imp_right fun ⟨m, hm, hmbreak⟩ =>
          ⟨m, List.mem_append_left _ hm, hmbreak⟩⟩

/-- Behind a significant lexeme a statement begins if that lexeme ends one. -/
theorem opensStatement_concat_significant {before : List Lexeme} {l : Lexeme}
    (hl : ¬ l.isTrivia) : OpensStatement (before ++ [l]) ↔ l.endsStatement := by
  constructor
  · rintro ⟨earlier, since, h, hsince, hearlier⟩
    obtain ⟨rfl, rfl⟩ | ⟨since, rfl, rfl⟩ := concat_eq_append h
    · simpa using (hearlier l List.getLast?_concat).2
    · exact absurd (hsince l (List.mem_append_right _ (List.mem_singleton_self l))) hl
  · intro hends
    refine ⟨before ++ [l], [], (List.append_nil _).symm, nofun, ?_⟩
    intro m hm
    rw [List.getLast?_concat] at hm
    rw [← Option.mem_some.1 hm]
    exact ⟨hl, .inl hends⟩

/-! ## The context behind lexemes -/

namespace Context

/-- The context behind the first lexemes of a source. -/
def behind (before : List Lexeme) : Context :=
  before.foldl after start

/-- In front of the first lexeme the context is that of the beginning. -/
theorem behind_nil : behind [] = start := rfl

/-- The context behind one lexeme more. -/
theorem behind_concat (before : List Lexeme) (l : Lexeme) :
    behind (before ++ [l]) = (behind before).after l := by
  rw [behind, List.foldl_concat]
  rfl

/-- How a lexeme changes whether a line begins. -/
theorem lineStart_after (ctx : Context) (l : Lexeme) :
    (ctx.after l).lineStart = (l.breaksLine || l.isTrivia && ctx.lineStart) := by
  cases l <;> simp [after, Lexeme.breaksLine, Lexeme.isTrivia, Bool.or_comm]

/-- How a lexeme changes whether a statement begins. -/
theorem opensStatement_after (ctx : Context) (l : Lexeme) :
    ((ctx.after l).lineStart || (ctx.after l).afterTerminator) =
      if l.isTrivia then l.breaksLine || (ctx.lineStart || ctx.afterTerminator)
      else l.endsStatement := by
  cases l <;>
    simp [after, Lexeme.breaksLine, Lexeme.isTrivia, Lexeme.endsStatement, Bool.or_assoc,
      Bool.or_left_comm]

/-- How a lexeme changes the number of open parentheses. -/
theorem parenDepth_after (ctx : Context) (l : Lexeme) :
    (ctx.after l).parenDepth = l.depthBehind ctx.parenDepth := by
  cases l <;> rfl

/-- The flag for the beginning of a line means what it says. -/
theorem lineStart_behind (before : List Lexeme) :
    (behind before).lineStart ↔ OpensLine before := by
  induction before using List.reverseRecOn with
  | nil => exact iff_of_true rfl opensLine_nil
  | append_singleton before l ih =>
    rw [behind_concat, lineStart_after, opensLine_concat, Bool.or_eq_true, Bool.and_eq_true, ih]

/-- The flags for the beginning of a statement mean what they say. -/
theorem opensStatement_behind (before : List Lexeme) :
    ((behind before).lineStart || (behind before).afterTerminator) ↔ OpensStatement before := by
  induction before using List.reverseRecOn with
  | nil => exact iff_of_true rfl opensStatement_nil
  | append_singleton before l ih =>
    rw [behind_concat, opensStatement_after]
    split
    · next htrivia => rw [opensStatement_concat_trivia htrivia, Bool.or_eq_true, ih]
    · next hl => rw [opensStatement_concat_significant hl]

/-- The number of open parentheses is counted. -/
theorem parenDepth_behind (before : List Lexeme) :
    (behind before).parenDepth = openParens before := by
  induction before using List.reverseRecOn with
  | nil => rfl
  | append_singleton before l ih =>
    rw [behind_concat, parenDepth_after, ih, openParens_concat]

/-- A declaration may begin where a statement begins outside parentheses. -/
theorem atBoundary_behind (before : List Lexeme) :
    (behind before).atBoundary ↔ openParens before = 0 ∧ OpensStatement before := by
  rw [atBoundary, Bool.and_eq_true, opensStatement_behind, parenDepth_behind, beq_iff_eq, and_comm]

end Context

/-! ## Lexemes that fit -/

/-- A longest identifier. -/
def IsWord (w rest : List Char) : Prop :=
  (∃ c cs, w = c :: cs ∧ isNameStart c ∧ ∀ d ∈ cs, isNamePart d) ∧
    ∀ c ∈ rest.head?, ¬ isNamePart c

/-- The lexeme may stand behind the lexemes `before` and in front of the text `rest`. -/
def Fits (before : List Lexeme) (rest : List Char) : Lexeme → Prop
  | .newline | .openParen | .closeParen => True
  | .blank c => c ∈ [' ', '\t', '\r']
  | .terminator c => c ∈ [';', '{', '}']
  | .lineComment text =>
    ∃ body, text = '/' :: '/' :: body ∧ '\n' ∉ body ∧ ∀ c ∈ rest.head?, c = '\n'
  | .blockComment text =>
    (∃ body, text = '/' :: '*' :: (body ++ ['*', '/']) ∧ ¬ ['*', '/'] <:+: body ++ ['*']) ∨
      ∃ body, text = '/' :: '*' :: body ∧ ¬ ['*', '/'] <:+: body ∧ rest = []
  | .directive text =>
    OpensLine before ∧ text.head? = some '#' ∧
      (∀ front back, text = front ++ '\n' :: back → front.getLast? = some '\\') ∧
      ∀ c ∈ rest.head?, c = '\n' ∧ text.getLast? ≠ some '\\'
  | .word w =>
    IsWord w rest ∧ ¬ ((∃ keyword : Keyword, keyword.word.toList = w) ∧
      BeginsDeclaration before rest)
  | .declaration _ body semicolons =>
    BeginsDeclaration before body ∧ ';' ∉ body ∧ semicolons ≠ [] ∧ (∀ c ∈ semicolons, c = ';') ∧
      ∀ c ∈ rest.head?, c ≠ ';'
  | .unterminated _ body => BeginsDeclaration before body ∧ ';' ∉ body ∧ rest = []
  | .other c =>
    c ∉ ['\n', ' ', '\t', '\r', ';', '{', '}', '(', ')'] ∧ ¬ isNameStart c ∧
      (c = '/' → ∀ d ∈ rest.head?, d ≠ '/' ∧ d ≠ '*') ∧ (c = '#' → ¬ OpensLine before)

/-- The lexemes make up the text, and each of them fits where it stands. -/
def IsSplit (cs : List Char) (ls : List Lexeme) : Prop :=
  ls.flatMap Lexeme.text = cs ∧
    ∀ before l behind, ls = before ++ l :: behind → Fits before (behind.flatMap Lexeme.text) l

/-! ## Lexemes where they stand -/

/-- Each of the lexemes has a property where it stands, if they all stand behind the lexemes
`before` and in front of the text `tail`. -/
def Everywhere (p : List Lexeme → List Char → Lexeme → Prop) (before : List Lexeme)
    (tail : List Char) : List Lexeme → Prop
  | [] => True
  | l :: ls => p before (ls.flatMap Lexeme.text ++ tail) l ∧ Everywhere p (before ++ [l]) tail ls

variable {p : List Lexeme → List Char → Lexeme → Prop} {before : List Lexeme} {tail : List Char}

/-- A property that lexemes have everywhere is had by each that stands between others. -/
theorem everywhere_iff {ls : List Lexeme} :
    Everywhere p before tail ls ↔ ∀ mid l behind, ls = mid ++ l :: behind →
      p (before ++ mid) (behind.flatMap Lexeme.text ++ tail) l := by
  induction ls generalizing before with
  | nil => simp [Everywhere]
  | cons l ls ih =>
    rw [Everywhere, ih]
    constructor
    · rintro ⟨hl, hls⟩ mid m behind h
      cases mid with
      | nil =>
        obtain ⟨rfl, rfl⟩ := List.cons.inj h
        rwa [List.append_nil]
      | cons k mid =>
        obtain ⟨rfl, rfl⟩ := List.cons.inj h
        have hm := hls mid m behind rfl
        rwa [List.append_assoc] at hm
    · intro h
      refine ⟨by simpa using h [] l ls rfl, fun mid m behind hls => ?_⟩
      have hm := h (l :: mid) m behind (by rw [hls]; rfl)
      rwa [List.append_assoc]

/-- A property that follows from another is had everywhere where the other is. -/
theorem Everywhere.imp {q : List Lexeme → List Char → Lexeme → Prop}
    (h : ∀ before rest l, p before rest l → q before rest l) {ls : List Lexeme}
    (hls : Everywhere p before tail ls) : Everywhere q before tail ls := by
  rw [everywhere_iff] at hls ⊢
  exact fun mid l behind heq => h _ _ _ (hls mid l behind heq)

/-- Lexemes in a row have a property everywhere if the first and the others do. -/
theorem everywhere_append {as bs : List Lexeme} :
    Everywhere p before tail (as ++ bs) ↔
      Everywhere p before (bs.flatMap Lexeme.text ++ tail) as ∧
        Everywhere p (before ++ as) tail bs := by
  induction as generalizing before with
  | nil => simp [Everywhere]
  | cons a as ih =>
    rw [List.cons_append, Everywhere, Everywhere, ih, List.flatMap_append, List.append_assoc,
      List.append_assoc, and_assoc]
    rfl

end ShaderInterface.Source
