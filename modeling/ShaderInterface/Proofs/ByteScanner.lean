import ShaderInterface.Proofs.CharBoundaries

/-!
# A scanner that reads bytes

How a host can scan a source that it holds as bytes: a cursor moves over the bytes and looks at one
or two of them at a time, and words, declarations and what is between them are cut out between two
places. Each cut is checked, so the scanner stops where it would cut a character into pieces. That
it never does is not seen from its definition, since the cursor also stands inside of characters.
-/

namespace ShaderInterface.Source.Bytewise

open Text

/-! ## Places in a source -/

/-- The first place from `i` on where a byte does not pass the test, or else the end. -/
def skipWhile (source : String) (p : Char → Bool) (i : Nat) : Nat :=
  i + (((sourceOctets source).drop i).takeWhile p).length

/-- The number of bytes in front of the first `*/`, or else of all. -/
def commentLength : List Char → Nat
  | [] => 0
  | c :: cs => if c == '*' && cs.head? == some '/' then 0 else commentLength cs + 1

/-- The number of bytes of a directive: up to a newline, where a backslash takes a newline behind it
along. -/
def directiveLength : List Char → Nat
  | [] => 0
  | c :: cs =>
    if c == '\n' then 0
    else if c == '\\' && cs.head? == some '\n' then directiveLength cs.tail + 2
    else directiveLength cs + 1
termination_by cs => cs.length
decreasing_by all_goals (simp only [List.length_cons, List.length_tail]; omega)

/-- The place where the spaces and tabs in front of `start` begin, if they begin behind `bound`. -/
def indentStart (source : String) (bound : Nat) : Nat → Nat
  | 0 => 0
  | i + 1 =>
    if bound < i + 1 && (sourceOctets source)[i]?.any Outline.isIndent then
      indentStart source bound i
    else i + 1

/-- The number of the line of a place. -/
def lineNumber (source : String) (i : Nat) : Nat :=
  ((sourceOctets source).take i).count '\n' + 1

/-- The place of a character in a text. -/
def find? (c : Char) (text : String) : Option Nat :=
  if c ∈ text.toList then some (byteCount (text.toList.takeWhile (· != c))) else none

/-! ## Declarations -/

/-- A place in a source, with what is known of the bytes before it. -/
structure Cursor where
  pos : Nat
  context : Context
  /-- The end of the last declaration. -/
  lastEnd : Nat
  found : List Declaration

namespace Cursor

/-- The beginning of a source. -/
def start : Cursor :=
  ⟨0, .start, 0, []⟩

/-- The cursor at another place. -/
def move (cur : Cursor) (pos : Nat) (context : Context) : Cursor :=
  { cur with pos, context }

end Cursor

variable (stage : Stage) (source : String) (cur : Cursor)

/-- Reads the declaration of a keyword that ends at the place `stop`. -/
def takeDeclaration (keyword : Keyword) (stop : Nat) : Except Stop Cursor := do
  let rest ← cut source stop source.utf8ByteSize
  match find? ';' rest with
  | none => throw (.refused (.unterminatedDeclaration stage keyword (lineNumber source cur.pos)))
  | some length =>
    let semicolon := stop + length
    let behind := skipWhile source (· == ';') (semicolon + 1)
    let payload ← cut source stop semicolon
    let declaration : Declaration := {
      keyword
      payload := String.ofList (trim payload.toList)
      start := indentStart source cur.lastEnd cur.pos
      stop := behind }
    return ⟨behind, ⟨false, true, cur.context.parenDepth⟩, behind, cur.found ++ [declaration]⟩

/-- Reads the word that begins at the cursor, or the declaration that this word begins. -/
def takeWord : Except Stop Cursor := do
  let stop := skipWhile source isNamePart cur.pos
  let word ← cut source cur.pos stop
  let behind := cur.move stop ⟨false, false, cur.context.parenDepth⟩
  match Keyword.ofWord? word with
  | none => return behind
  | some keyword =>
    if cur.context.atBoundary && (sourceOctets source)[stop]?.any isKeywordGap then
      takeDeclaration stage source cur keyword stop
    else return behind

/-- Reads what begins with the byte at the cursor. -/
def step : Except Stop Cursor :=
  let ctx := cur.context
  match (sourceOctets source).drop cur.pos with
  | [] => .ok cur
  | c :: cs =>
    if c == '\n' then .ok (cur.move (cur.pos + 1) { ctx with lineStart := true })
    else if isLineBlank c then .ok (cur.move (cur.pos + 1) ctx)
    else if c == '/' && cs.head? == some '/' then
      .ok (cur.move (skipWhile source (· != '\n') cur.pos) ctx)
    else if c == '/' && cs.head? == some '*' then
      let length := commentLength cs.tail
      let lineStart := ctx.lineStart || (cs.tail.take length).contains '\n'
      .ok (cur.move (min (cur.pos + 2 + length + 2) source.utf8ByteSize) { ctx with lineStart })
    else if c == '#' && ctx.lineStart then
      .ok (cur.move (cur.pos + directiveLength (c :: cs)) ctx)
    else if isTerminator c then
      .ok (cur.move (cur.pos + 1) { ctx with lineStart := false, afterTerminator := true })
    else if c == '(' then .ok (cur.move (cur.pos + 1) ⟨false, false, ctx.parenDepth + 1⟩)
    else if c == ')' then .ok (cur.move (cur.pos + 1) ⟨false, false, ctx.parenDepth - 1⟩)
    else if isNameStart c then takeWord stage source cur
    else .ok (cur.move (cur.pos + 1) ⟨false, false, ctx.parenDepth⟩)

variable {stage source cur}

/-- A place is skipped if its byte passes the test. -/
theorem lt_skipWhile {p : Char → Bool} {i : Nat} {c : Char} {cs : List Char}
    (h : (sourceOctets source).drop i = c :: cs) (hc : p c) : i < skipWhile source p i := by
  rw [skipWhile, h, List.takeWhile_cons_of_pos hc, List.length_cons]
  omega

/-- No place is skipped backwards. -/
theorem le_skipWhile (source : String) (p : Char → Bool) (i : Nat) : i ≤ skipWhile source p i :=
  Nat.le_add_right _ _

/-- A directive takes at least one byte. -/
theorem directiveLength_pos {c : Char} (hc : c ≠ '\n') (cs : List Char) :
    0 < directiveLength (c :: cs) := by
  rw [directiveLength, if_neg (by simpa using hc)]
  split <;> exact Nat.succ_pos _

/-- A declaration ends behind the keyword. -/
theorem lt_pos_of_takeDeclaration {keyword : Keyword} {stop : Nat} {next : Cursor}
    (h : takeDeclaration stage source cur keyword stop = .ok next) : stop < next.pos := by
  obtain ⟨rest, -, h⟩ := Outcome.bind_eq_ok_iff.1 h
  split at h
  · contradiction
  · next length hfind =>
    obtain ⟨payload, -, h⟩ := Outcome.bind_eq_ok_iff.1 h
    obtain rfl := Except.ok.inj h
    have hle := le_skipWhile source (· == ';') (stop + length + 1)
    show stop < skipWhile source (· == ';') (stop + length + 1)
    omega

/-- A word takes at least one byte. -/
theorem lt_pos_of_takeWord {c : Char} {cs : List Char} {next : Cursor}
    (hdrop : (sourceOctets source).drop cur.pos = c :: cs) (hc : isNameStart c)
    (h : takeWord stage source cur = .ok next) : cur.pos < next.pos := by
  have hlt := lt_skipWhile hdrop (isNamePart_of_isNameStart hc)
  obtain ⟨word, -, h⟩ := Outcome.bind_eq_ok_iff.1 h
  split at h
  · obtain rfl := Except.ok.inj h
    exact hlt
  · split at h
    · exact Nat.lt_trans hlt (lt_pos_of_takeDeclaration h)
    · obtain rfl := Except.ok.inj h
      exact hlt

/-- The cursor moves forward as long as there are bytes. -/
theorem lt_pos_of_step {next : Cursor} (hpos : cur.pos < source.utf8ByteSize)
    (h : step stage source cur = .ok next) : cur.pos < next.pos := by
  have hlength : (sourceOctets source).length = source.utf8ByteSize := by
    rw [sourceOctets_eq, length_octets, byteCount_toList]
  obtain ⟨c, cs, hdrop⟩ : ∃ c cs, (sourceOctets source).drop cur.pos = c :: cs :=
    List.exists_cons_of_ne_nil (by rw [Ne, List.drop_eq_nil_iff]; omega)
  unfold step at h
  rw [hdrop] at h
  dsimp only at h
  have hsingle : ∀ {context},
      (.ok (cur.move (cur.pos + 1) context) : Except Stop Cursor) = .ok next →
        cur.pos < next.pos := by
    intro context hnext
    rw [← Except.ok.inj hnext]
    exact Nat.lt_succ_self _
  split at h
  · exact hsingle h
  split at h
  · exact hsingle h
  split at h
  · next hcomment =>
    obtain rfl := Except.ok.inj h
    rw [Bool.and_eq_true, beq_iff_eq] at hcomment
    exact lt_skipWhile hdrop (by rw [hcomment.1]; rfl)
  split at h
  · next hcomment =>
    obtain rfl := Except.ok.inj h
    rw [Bool.and_eq_true, beq_iff_eq, beq_iff_eq, List.head?_eq_some_iff] at hcomment
    obtain ⟨-, ds, rfl⟩ := hcomment
    have hrest := congrArg List.length hdrop
    simp only [List.length_drop, List.length_cons] at hrest
    exact lt_min (by omega) hpos
  split at h
  · next hdirective =>
    obtain rfl := Except.ok.inj h
    rw [Bool.and_eq_true, beq_iff_eq] at hdirective
    have hne : c ≠ '\n' := by
      rw [hdirective.1]
      decide
    exact Nat.lt_add_of_pos_right (directiveLength_pos hne cs)
  split at h
  · exact hsingle h
  split at h
  · exact hsingle h
  split at h
  · exact hsingle h
  split at h
  · next hname => exact lt_pos_of_takeWord hdrop hname h
  · exact hsingle h

/-- Reads on to the end of the source. -/
def run (stage : Stage) (source : String) (cur : Cursor) : Except Stop (List Declaration) :=
  if _ : cur.pos < source.utf8ByteSize then
    match _ : step stage source cur with
    | .error stop => .error stop
    | .ok next => run stage source next
  else .ok cur.found
termination_by source.utf8ByteSize - cur.pos
decreasing_by exact Nat.sub_lt_sub_left ‹_› (lt_pos_of_step ‹_› ‹_›)

/-- Reads the declarations of a source. -/
def tokenize (stage : Stage) (source : String) : Except Stop (List Declaration) :=
  run stage source .start

/-- A step is followed by the others. -/
theorem run_of_step_eq_ok {next : Cursor} (hpos : cur.pos < source.utf8ByteSize)
    (h : step stage source cur = .ok next) : run stage source cur = run stage source next := by
  rw [run, dif_pos hpos]
  split
  · next stop hstop => rw [h] at hstop; contradiction
  · next next' hnext => rw [Except.ok.inj (h.symm.trans hnext)]

/-- No step follows one that stops. -/
theorem run_of_step_eq_error {stop : Stop} (hpos : cur.pos < source.utf8ByteSize)
    (h : step stage source cur = .error stop) : run stage source cur = .error stop := by
  rw [run, dif_pos hpos]
  split
  · next stop' hstop => rw [Except.error.inj (h.symm.trans hstop)]
  · next next hnext => rw [h] at hnext; contradiction

/-- At the end of a source nothing is left to read. -/
theorem run_of_le (h : source.utf8ByteSize ≤ cur.pos) : run stage source cur = .ok cur.found := by
  rw [run, dif_neg (Nat.not_lt.2 h)]

/-! ## Sources without their declarations -/

/-- A source without its declarations, with a mark at the place for a block of code. -/
structure Marked where
  text : String
  /-- The number of bytes in front of the mark. -/
  offset : Nat
  declarations : List (Keyword × String)
deriving DecidableEq, Repr

/-- The place behind the line of a leading `#version` directive, or the beginning. -/
def versionEnd (source : String) : Except Stop Nat :=
  let trimmed := trimStart source.toList
  if "#version".toList <+: trimmed then do
    let start := source.utf8ByteSize - byteCount trimmed
    let directive ← cut source start source.utf8ByteSize
    match find? '\n' directive with
    | some length => return start + length + 1
    | none => return source.utf8ByteSize
  else .ok 0

/-- What is left of a source from `copied` on when declarations are taken out. -/
def copyFrom (source : String) (copied : Nat) : List Declaration → Except Stop String
  | [] => cut source copied source.utf8ByteSize
  | d :: ds => do
    let gap ← cut source copied d.start
    let rest ← copyFrom source d.stop ds
    return gap ++ rest

/-- The text with a mark on a line of its own between two parts. -/
def mark (head tail : String) (declarations : List (Keyword × String)) : Marked where
  text := head ++ placeholder ++ "\n" ++ tail
  offset := head.utf8ByteSize
  declarations

/-- Marks a source without declarations behind the line of a leading `#version` directive. -/
def markBare (source : String) : Except Stop Marked := do
  let place ← versionEnd source
  let line ← cut source 0 place
  let head := if place > 0 && line.toList.getLast? != some '\n' then line ++ "\n" else line
  let tail ← cut source place source.utf8ByteSize
  return mark head tail []

/-- Takes the declarations out of the source of a stage. -/
def scan (stage : Stage) (source : String) : Except Stop Marked := do
  if source.utf8ByteSize > maxSourceBytes then
    throw (.refused (.sourceTooLarge stage source.utf8ByteSize maxSourceBytes))
  match ← tokenize stage source with
  | [] => markBare source
  | d :: ds =>
    let head ← cut source 0 d.start
    let tail ← copyFrom source d.stop ds
    return mark head tail ((d :: ds).map fun d => (d.keyword, d.payload))

/-- Puts a block of code in the place of the mark. -/
def splice (marked : Marked) (block : String) : Except Stop String := do
  let head ← cut marked.text 0 marked.offset
  let tail ← cut marked.text (marked.offset + placeholder.utf8ByteSize) marked.text.utf8ByteSize
  return head ++ block ++ tail

end ShaderInterface.Source.Bytewise
