import ShaderInterface.Proofs.AppendedText
import ShaderInterface.Proofs.ByteScanner

/-!
# Places among bytes and among characters

Where some characters end, the bytes of a source can be searched as its characters can: tests, the
stretches that pass them, indents, lines, comments and directives come to the same on either side.
-/

namespace ShaderInterface.Source.Bytewise

open Text

variable {source : String} {before cs : List Char}

/-! ## Tests -/

/-- A test that no character beyond ASCII passes takes them for the same. -/
theorem tellsAscii_of_lt {p : Char → Bool} (h : ∀ c, p c → c.toNat < 128) : TellsAscii p := by
  have hfalse : ∀ c : Char, 128 ≤ c.toNat → p c = false := fun c hc =>
    Bool.eq_false_iff.2 fun hp => Nat.not_lt.2 hc (h c hp)
  exact fun c d hc hd => (hfalse c hc).trans (hfalse d hd).symm

/-- What continues an identifier is ASCII. -/
theorem lt_of_isNamePart {c : Char} (h : isNamePart c) : c.toNat < 128 :=
  Nat.lt_of_le_of_lt (toNat_of_isNamePart h).2 (by decide)

/-- What follows a keyword is ASCII. -/
theorem lt_of_isKeywordGap {c : Char} (h : isKeywordGap c) : c.toNat < 128 := by
  simp only [isKeywordGap, Bool.or_eq_true, beq_iff_eq] at h
  rcases h with (((rfl | rfl) | rfl) | rfl) | rfl <;> decide

/-- An indent is ASCII. -/
theorem lt_of_isIndent {c : Char} (h : Outline.isIndent c) : c.toNat < 128 := by
  simp only [Outline.isIndent, Bool.or_eq_true, beq_iff_eq] at h
  rcases h with rfl | rfl <;> decide

/-- The test for any character but one of ASCII takes those beyond for the same. -/
theorem tellsAscii_bne {a : Char} (ha : a.toNat < 128) : TellsAscii (· != a) :=
  (tellsAscii_beq ha).not

/-! ## Places -/

section

variable (h : source.toList = before ++ cs)
include h

/-- Behind the bytes of some characters stand those of the others. -/
theorem drop_sourceOctets : (sourceOctets source).drop (byteCount before) = octets cs := by
  rw [sourceOctets_eq, h, drop_octets]

/-- The byte behind some characters has a property if the next character does. -/
theorem any_getElem?_sourceOctets {p : Char → Bool} (hp : TellsAscii p) :
    (sourceOctets source)[byteCount before]?.any p = cs.head?.any p := by
  rw [← any_head?_octets hp, ← drop_sourceOctets h, List.head?_drop]

/-- As many bytes are skipped as characters with the property have. -/
theorem skipWhile_eq {p : Char → Bool} (hp : TellsAscii p) :
    skipWhile source p (byteCount before) = byteCount (before ++ cs.takeWhile p) := by
  rw [skipWhile, drop_sourceOctets h, takeWhile_octets hp, length_octets, byteCount_append]

/-- The lines are those of the characters. -/
theorem lineNumber_eq : lineNumber source (byteCount before) = before.count '\n' + 1 := by
  rw [lineNumber, sourceOctets_eq, h, take_octets, count_octets (by decide)]

end

/-- Nothing stands in front of a place behind itself. -/
theorem indentStart_self (source : String) (i : Nat) : indentStart source i i = i := by
  cases i with
  | zero => rfl
  | succ i => simp [indentStart]

/-- The byte in front of a place has a property if the character does that ends there. -/
theorem any_getElem?_sourceOctets_of_concat {p : Char → Bool} (hp : TellsAscii p) {c : Char}
    (h : source.toList = before ++ [c] ++ cs) {i : Nat} (hi : byteCount (before ++ [c]) = i + 1) :
    (sourceOctets source)[i]?.any p = p c := by
  have hlength : (octets (before ++ [c])).length = i + 1 := by
    rw [length_octets, hi]
  have hlast : (octets (before ++ [c]))[i]? = (charOctets c).getLast? := by
    have hconcat : octets (before ++ [c]) = octets before ++ charOctets c := by
      rw [octets_append, octets_cons]
      exact congrArg (octets before ++ ·) (List.append_nil _)
    rw [← Nat.add_sub_cancel (n := i) (m := 1), ← hlength, ← List.getLast?_eq_getElem?, hconcat,
      List.getLast?_append_of_ne_nil _ (charOctets_ne_nil c)]
  rw [sourceOctets_eq, h, octets_append, List.getElem?_append_left (by omega), hlast,
    List.getLast?_eq_some_getLast (charOctets_ne_nil c), Option.any_some,
    hp.eq_of_mem_charOctets (List.getLast_mem _)]

/-- An indent runs back to the first of its blanks, or to the end of the text in front of it. -/
theorem indentStart_eq {front mid : List Char} (h : source.toList = front ++ mid ++ cs) :
    indentStart source (byteCount front) (byteCount (front ++ mid)) =
      byteCount (front ++ mid.rdropWhile Outline.isIndent) := by
  induction mid using List.reverseRecOn generalizing cs with
  | nil => rw [List.append_nil, indentStart_self, List.rdropWhile_nil, List.append_nil]
  | append_singleton mid c ih =>
    rw [← List.append_assoc] at h ⊢
    have hpos : 0 < byteCount [c] := Nat.lt_of_lt_of_le Nat.one_pos (length_le_byteCount [c])
    have hcount : byteCount (front ++ mid ++ [c]) = byteCount (front ++ mid) + byteCount [c] :=
      byteCount_append _ _
    obtain ⟨i, hi⟩ := Nat.exists_eq_add_one_of_ne_zero
      (Nat.ne_of_gt (Nat.add_pos_right (byteCount (front ++ mid)) hpos))
    rw [← hcount] at hi
    have hbyte :=
      any_getElem?_sourceOctets_of_concat (tellsAscii_of_lt fun _ => lt_of_isIndent) h hi
    have hbound : byteCount front < i + 1 := by
      rw [← hi, hcount, byteCount_append]
      omega
    rw [hi, indentStart, hbyte, decide_eq_true hbound, Bool.true_and]
    by_cases hc : Outline.isIndent c
    · have hone : byteCount [c] = 1 := by
        rw [← length_octets, octets_cons_of_lt (lt_of_isIndent hc)]
        rfl
      have hback : i = byteCount (front ++ mid) := by
        omega
      rw [if_pos hc, hback, List.rdropWhile_concat_pos _ _ _ hc]
      exact ih (by rw [h, List.append_assoc])
    · rw [if_neg hc, List.rdropWhile_concat_neg _ _ _ hc, ← hi, List.append_assoc]

/-- A character of ASCII is one byte. -/
theorem byteCount_cons_of_lt {c : Char} (hc : c.toNat < 128) (cs : List Char) :
    byteCount (c :: cs) = byteCount cs + 1 := by
  rw [← length_octets, octets_cons_of_lt hc, List.length_cons, length_octets]

/-- The bytes beyond ASCII end no comment. -/
theorem commentLength_append {ds : List Char} (hds : ∀ d ∈ ds, 128 ≤ d.toNat) (xs : List Char) :
    commentLength (ds ++ xs) = ds.length + commentLength xs := by
  induction ds with
  | nil => rw [List.nil_append, List.length_nil, Nat.zero_add]
  | cons d ds ih =>
    rw [List.forall_mem_cons] at hds
    have hstar : (d == '*') = false :=
      beq_eq_false_iff_ne.2 (ne_of_le_of_lt hds.1 (by decide))
    rw [List.cons_append, commentLength, hstar, Bool.false_and, if_neg Bool.false_ne_true, ih hds.2,
      List.length_cons, Nat.add_right_comm]

/-- The bytes beyond ASCII end no directive. -/
theorem directiveLength_append {ds : List Char} (hds : ∀ d ∈ ds, 128 ≤ d.toNat) (xs : List Char) :
    directiveLength (ds ++ xs) = ds.length + directiveLength xs := by
  induction ds with
  | nil => rw [List.nil_append, List.length_nil, Nat.zero_add]
  | cons d ds ih =>
    rw [List.forall_mem_cons] at hds
    have hne : ∀ a : Char, a.toNat < 128 → (d == a) = false := fun a ha =>
      beq_eq_false_iff_ne.2 (ne_of_le_of_lt hds.1 ha)
    rw [List.cons_append, directiveLength, hne '\n' (by decide), hne '\\' (by decide),
      Bool.false_and, if_neg Bool.false_ne_true, if_neg Bool.false_ne_true, ih hds.2,
      List.length_cons, Nat.add_right_comm]

/-- The first byte is a given one of ASCII if the first character is. -/
theorem head?_octets_beq {a : Char} (ha : a.toNat < 128) (cs : List Char) :
    ((octets cs).head? == some a) = (cs.head? == some a) := by
  rw [Bool.eq_iff_iff, beq_iff_eq, beq_iff_eq, head?_octets_eq_some_iff ha]

/-- A character takes its bytes. -/
theorem byteCount_cons (c : Char) (cs : List Char) :
    byteCount (c :: cs) = (charOctets c).length + byteCount cs := by
  rw [← length_octets, octets_cons, List.length_append, length_octets]

/-- The first `*/` among the bytes stands where it stands among the characters. -/
theorem commentLength_octets (cs : List Char) :
    commentLength (octets cs) = byteCount (cs.take (commentLength cs)) := by
  induction cs with
  | nil => rfl
  | cons c cs ih =>
    by_cases hc : c.toNat < 128
    · rw [octets_cons_of_lt hc, commentLength, commentLength, head?_octets_beq (by decide), ih]
      split
      · rfl
      · rw [List.take_succ_cons, byteCount_cons_of_lt hc]
    · have hc := Nat.not_lt.1 hc
      have hfirst := commentLength_append (List.forall_mem_singleton.2 hc) cs
      rw [List.singleton_append, List.length_singleton, Nat.add_comm] at hfirst
      rw [octets_cons, commentLength_append fun d => le_toNat_of_mem_charOctets hc, ih, hfirst,
        List.take_succ_cons, byteCount_cons]

/-- A directive has the bytes of its characters. -/
theorem directiveLength_octets (cs : List Char) :
    directiveLength (octets cs) = byteCount (cs.take (directiveLength cs)) := by
  fun_induction directiveLength cs with
  | case1 => rw [octets, List.flatMap_nil, directiveLength, List.take_zero, byteCount_nil]
  | case2 c cs hnewline =>
    obtain rfl := eq_of_beq hnewline
    rw [octets_cons_of_lt (by decide), directiveLength, if_pos hnewline, List.take_zero,
      byteCount_nil]
  | case3 c cs hnewline hescape ih =>
    rw [Bool.and_eq_true, beq_iff_eq, beq_iff_eq] at hescape
    obtain ⟨rfl, hhead⟩ := hescape
    obtain ⟨ds, rfl⟩ := List.head?_eq_some_iff.1 hhead
    rw [List.tail_cons] at ih ⊢
    rw [octets_cons_of_lt (by decide), octets_cons_of_lt (by decide), directiveLength,
      if_neg (by decide), if_pos (by simp), List.tail_cons, ih, List.take_succ_cons,
      List.take_succ_cons, byteCount_cons_of_lt (by decide), byteCount_cons_of_lt (by decide)]
  | case4 c cs hnewline hescape ih =>
    by_cases hc : c.toNat < 128
    · rw [octets_cons_of_lt hc, directiveLength, if_neg hnewline, head?_octets_beq (by decide),
        if_neg hescape, ih, List.take_succ_cons, byteCount_cons_of_lt hc]
    · have hc := Nat.not_lt.1 hc
      rw [octets_cons, directiveLength_append fun d => le_toNat_of_mem_charOctets hc, ih,
        List.take_succ_cons, byteCount_cons]

/-- A character is found where the characters before it end. -/
theorem find?_eq_some {c : Char} (hc : c ∈ cs) :
    find? c (String.ofList cs) = some (byteCount (cs.takeWhile (· != c))) := by
  rw [find?, String.toList_ofList, if_pos hc]

/-- A character that is not there is not found. -/
theorem find?_eq_none {c : Char} (hc : c ∉ cs) : find? c (String.ofList cs) = none := by
  rw [find?, String.toList_ofList, if_neg hc]

/-! ## Comments and directives -/

/-- A block comment without its first two characters runs behind the first `*/`. -/
theorem spanNeighbours_insideComment {b : Char} (hb : b = '*' → cs.head? ≠ some '/') :
    (spanNeighbours insideComment b cs).1 ++ (spanNeighbours insideComment b cs).2.take 1 =
      cs.take (commentLength cs + 2) := by
  induction cs generalizing b with
  | nil => rfl
  | cons c cs ih =>
    have hinside : insideComment b c := by
      simp only [insideComment, Bool.not_eq_true', Bool.and_eq_false_iff, beq_eq_false_iff_ne]
      by_cases hstar : b = '*'
      · exact .inr fun hc => hb hstar (congrArg some hc)
      · exact .inl hstar
    rw [spanNeighbours_cons_pos hinside, commentLength]
    split
    · next hclose =>
      rw [Bool.and_eq_true, beq_iff_eq, beq_iff_eq, List.head?_eq_some_iff] at hclose
      obtain ⟨rfl, ds, rfl⟩ := hclose
      rw [spanNeighbours_cons_neg (by decide)]
      rfl
    · next hopen =>
      have hc : c = '*' → cs.head? ≠ some '/' := by
        rintro rfl hhead
        exact hopen (by rw [hhead]; rfl)
      rw [List.cons_append, ih hc]
      rfl

/-- Either `*/` stands behind the characters in front of the first, or these are all. -/
theorem take_commentLength (cs : List Char) :
    (cs.take (commentLength cs + 2) = cs.take (commentLength cs) ++ ['*', '/'] ∧
      ∃ behind, cs = cs.take (commentLength cs + 2) ++ behind) ∨
      cs.take (commentLength cs) = cs ∧ cs.take (commentLength cs + 2) = cs := by
  induction cs with
  | nil => exact .inr ⟨rfl, rfl⟩
  | cons c cs ih =>
    rw [commentLength]
    split
    · next hclose =>
      rw [Bool.and_eq_true, beq_iff_eq, beq_iff_eq, List.head?_eq_some_iff] at hclose
      obtain ⟨rfl, ds, rfl⟩ := hclose
      exact .inl ⟨rfl, ds, rfl⟩
    · obtain ⟨hclose, behind, hbehind⟩ | ⟨hall, hall'⟩ := ih
      · exact .inl ⟨congrArg (c :: ·) hclose, behind, congrArg (c :: ·) hbehind⟩
      · exact .inr ⟨congrArg (c :: ·) hall, congrArg (c :: ·) hall'⟩

/-- A directive runs up to a newline with no backslash before it. -/
theorem spanNeighbours_insideDirective {b : Char} (hb : b ≠ '\\') :
    (spanNeighbours insideDirective b cs).1 = cs.take (directiveLength cs) := by
  fun_induction directiveLength cs generalizing b with
  | case1 => rfl
  | case2 c cs hnewline =>
    have hend : ¬ insideDirective b c := by
      rw [eq_of_beq hnewline]
      simpa [insideDirective] using hb
    rw [spanNeighbours_cons_neg hend]
    rfl
  | case3 c cs hnewline hescape ih =>
    rw [Bool.and_eq_true, beq_iff_eq, beq_iff_eq, List.head?_eq_some_iff] at hescape
    obtain ⟨rfl, ds, rfl⟩ := hescape
    have hinside : insideDirective b '\\' := by
      simp [insideDirective]
    rw [spanNeighbours_cons_pos hinside, spanNeighbours_cons_pos (by decide)]
    exact congrArg ('\\' :: '\n' :: ·) (ih (by decide))
  | case4 c cs hnewline hescape ih =>
    have hinside : ∀ b, insideDirective b c := fun b => by
      simpa [insideDirective] using .inl (by simpa using hnewline)
    have hrest : (spanNeighbours insideDirective c cs).1 = cs.take (directiveLength cs) := by
      by_cases hc : c = '\\'
      · -- a backslash means nothing where no newline follows
        subst hc
        rw [← ih (b := ' ') (by decide)]
        cases cs with
        | nil => rfl
        | cons d ds =>
          have hd : d ≠ '\n' := by
            rintro rfl
            exact hescape (by rfl)
          have hinside : ∀ b, insideDirective b d := fun b => by
            simp [insideDirective, hd]
          rw [spanNeighbours_cons_pos (hinside _), spanNeighbours_cons_pos (hinside _)]
      · exact ih hc
    rw [spanNeighbours_cons_pos (hinside b)]
    exact congrArg (c :: ·) hrest

end ShaderInterface.Source.Bytewise
