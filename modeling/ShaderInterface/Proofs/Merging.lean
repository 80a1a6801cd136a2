import Mathlib.Data.List.Nodup
import ShaderInterface.Proofs.Outcome
import ShaderInterface.Proofs.Words
import ShaderInterface.Uniform

/-!
# Merged uniforms

A list of uniform lines is merged if every line is read and lines that declare one name differ in
nothing but blanks; what comes out are the uniforms of the lines without those that repeat an
earlier one. `Uniform.merge_eq_ok_iff` says so. It does not matter which of several repeated lines
is kept, since a declarator is read by its words.
-/

namespace ShaderInterface

/-! ## Reading by words -/

/-- A declarator is read by its words. -/
theorem Declarator.parse_congr {s t : String} (h : Text.words s = Text.words t) :
    parse s = parse t := by
  have hcomma : s.toList.contains ',' = t.toList.contains ',' := by
    rw [Bool.eq_iff_iff, List.contains_iff_mem, List.contains_iff_mem]
    have hwords : ∀ s : String, ',' ∈ s.toList ↔ ∃ w ∈ Text.words s, ',' ∈ w.toList := by
      intro s
      rw [Text.exists_mem_words_iff, and_iff_left (by decide)]
    rw [hwords, hwords, h]
  rw [parse, parse, h, hcomma]

namespace Uniform

/-- A uniform is read if its declarator is. -/
theorem parse_eq_ok_iff {stage : Stage} {text : String} {u : Uniform} :
    parse stage text = .ok u ↔
      Declarator.parse text = .ok u.toDeclarator ∧ u.text = text ∧ u.stage = stage := by
  rw [parse]
  cases Declarator.parse text with
  | error fault => exact iff_of_false nofun fun h => nomatch h.1
  | ok d =>
    obtain ⟨e, text', stage'⟩ := u
    simp [Uniform.mk.injEq, eq_comm]

/-- The uniform is what its text declares. -/
def IsRead (u : Uniform) : Prop :=
  Declarator.parse u.text = .ok u.toDeclarator

/-- What was read from a line is what its text declares. -/
theorem isRead_of_parse {stage : Stage} {text : String} {u : Uniform}
    (h : parse stage text = .ok u) : u.IsRead := by
  obtain ⟨hparse, rfl, -⟩ := parse_eq_ok_iff.1 h
  exact hparse

/-! ## Repeated uniforms -/

/-- The uniforms are declared by the same text, but for blanks. -/
def repeats (u v : Uniform) : Bool :=
  Text.collapse u.text == Text.collapse v.text

/-- A uniform repeats another one if their texts are the same, but for blanks. -/
theorem repeats_iff {u v : Uniform} :
    u.repeats v ↔ Text.collapse u.text = Text.collapse v.text :=
  beq_iff_eq

/-- Uniforms of the same text are the same. -/
theorem toDeclarator_eq_of_repeats {u v : Uniform} (hu : u.IsRead) (hv : v.IsRead)
    (h : u.repeats v) : u.toDeclarator = v.toDeclarator := by
  have hparse := Declarator.parse_congr (Text.collapse_inj.1 (repeats_iff.1 h))
  rw [hu, hv] at hparse
  exact Except.ok.inj hparse

/-- The uniforms without those that repeat an earlier one. -/
def distinct (us : List Uniform) : List Uniform :=
  us.eraseDupsBy repeats

/-- A uniform is kept, and those that repeat it are dropped. -/
theorem distinct_cons (u : Uniform) (us : List Uniform) :
    distinct (u :: us) = u :: distinct (us.filter fun v => !v.repeats u) := by
  simp only [distinct, List.eraseDupsBy_cons, Bool.decide_eq_false]

/-- Induction along the uniforms that are kept. -/
theorem distinct_induction {motive : List Uniform → Prop} (nil : motive [])
    (cons : ∀ u us, motive (us.filter fun v => !v.repeats u) → motive (u :: us)) :
    ∀ us, motive us
  | [] => nil
  | u :: us => cons u us (distinct_induction nil cons (us.filter fun v => !v.repeats u))
termination_by us => us.length
decreasing_by exact Nat.lt_succ_of_le (List.length_filter_le _ us)

/-- No uniform is new. -/
theorem mem_of_mem_distinct {us : List Uniform} {u : Uniform} (hu : u ∈ distinct us) : u ∈ us := by
  induction us using distinct_induction with
  | nil => exact hu
  | cons first us ih =>
    rw [distinct_cons, List.mem_cons] at hu
    rcases hu with rfl | hu
    · exact List.mem_cons_self
    · exact List.mem_cons_of_mem first (List.mem_filter.1 (ih hu)).1

/-- Each uniform is kept, or repeats one that is. -/
theorem exists_mem_distinct {us : List Uniform} {u : Uniform} (hu : u ∈ us) :
    ∃ v ∈ distinct us, u.repeats v := by
  induction us using distinct_induction with
  | nil => contradiction
  | cons first us ih =>
    rw [distinct_cons]
    by_cases hrepeats : u.repeats first
    · exact ⟨first, List.mem_cons_self, hrepeats⟩
    · have hus : u ∈ us := (List.mem_cons.1 hu).resolve_left fun h =>
        hrepeats (h ▸ repeats_iff.2 rfl)
      obtain ⟨v, hv, huv⟩ := ih (List.mem_filter.2 ⟨hus, by simpa using hrepeats⟩)
      exact ⟨v, List.mem_cons_of_mem first hv, huv⟩

/-- Dropping repeated uniforms from the front of a list first changes nothing. -/
theorem distinct_distinct_append (us vs : List Uniform) :
    distinct (distinct us ++ vs) = distinct (us ++ vs) := by
  induction us using distinct_induction generalizing vs with
  | nil => rfl
  | cons u us ih =>
    have hkept : (distinct (us.filter fun v => !v.repeats u)).filter (fun v => !v.repeats u) =
        distinct (us.filter fun v => !v.repeats u) :=
      List.filter_eq_self.2 fun v hv => (List.mem_filter.1 (mem_of_mem_distinct hv)).2
    rw [distinct_cons, List.cons_append, List.cons_append, distinct_cons, distinct_cons,
      List.filter_append, List.filter_append, hkept, ih]

/-! ## Uniforms of one name -/

/-- Uniforms of one name are declared by the same text, but for blanks. -/
def Consistent (us : List Uniform) : Prop :=
  ∀ u ∈ us, ∀ v ∈ us, u.name = v.name → Text.collapse u.text = Text.collapse v.text

/-- Fewer uniforms are consistent too. -/
theorem Consistent.subset {us vs : List Uniform} (h : Consistent us) (hsub : vs ⊆ us) :
    Consistent vs :=
  fun u hu v hv => h u (hsub hu) v (hsub hv)

/-- Repeated uniforms do not change whether uniforms are consistent. -/
theorem consistent_distinct_append {us vs : List Uniform} (hus : ∀ u ∈ us, u.IsRead) :
    Consistent (distinct us ++ vs) ↔ Consistent (us ++ vs) := by
  -- a uniform that was dropped is as good as the one that it repeats
  have hkept : ∀ u ∈ us ++ vs, ∃ v ∈ distinct us ++ vs,
      u.name = v.name ∧ Text.collapse u.text = Text.collapse v.text := by
    intro u hu
    rcases List.mem_append.1 hu with hu | hu
    · obtain ⟨v, hv, huv⟩ := exists_mem_distinct hu
      have hdeclarator :=
        toDeclarator_eq_of_repeats (hus u hu) (hus v (mem_of_mem_distinct hv)) huv
      exact ⟨v, List.mem_append_left vs hv, congrArg (·.name) hdeclarator, repeats_iff.1 huv⟩
    · exact ⟨u, List.mem_append_right _ hu, rfl, rfl⟩
  constructor
  · intro h u hu v hv hname
    obtain ⟨u', hu', hname', htext⟩ := hkept u hu
    obtain ⟨v', hv', hname'', htext'⟩ := hkept v hv
    rw [htext, htext']
    exact h u' hu' v' hv' (hname'.symm.trans (hname.trans hname''))
  · have hsub : distinct us ++ vs ⊆ us ++ vs :=
      List.append_subset.2 ⟨fun _ h => List.mem_append_left vs (mem_of_mem_distinct h),
        List.subset_append_right us vs⟩
    exact fun h => h.subset hsub

/-- The uniforms are what their texts declare, and no two have one name. -/
structure Collected (found : List Uniform) : Prop where
  isRead : ∀ u ∈ found, u.IsRead
  nodup : (found.map (·.name)).Nodup

/-- Behind the first of uniforms with different names none repeats it. -/
theorem Collected.of_cons {u : Uniform} {us : List Uniform} (h : Collected (u :: us)) :
    (us.filter fun v => !v.repeats u) = us ∧ Collected us := by
  obtain ⟨hread, hnodup⟩ := h
  rw [List.forall_mem_cons] at hread
  rw [List.map_cons, List.nodup_cons] at hnodup
  refine ⟨List.filter_eq_self.2 fun v hv => ?_, hread.2, hnodup.2⟩
  rw [Bool.not_eq_true', Bool.eq_false_iff]
  intro hrepeats
  have hdeclarator := toDeclarator_eq_of_repeats (hread.2 v hv) hread.1 hrepeats
  exact hnodup.1 (List.mem_map.2 ⟨v, hv, congrArg (·.name) hdeclarator⟩)

/-- Of uniforms with different names none is dropped. -/
theorem Collected.distinct_eq {found : List Uniform} (h : Collected found) :
    distinct found = found := by
  induction found with
  | nil => rfl
  | cons u us ih =>
    obtain ⟨hkept, hus⟩ := h.of_cons
    rw [distinct_cons, hkept, ih hus]

/-- Behind uniforms with different names one is dropped if it repeats one of them. -/
theorem Collected.distinct_concat {found : List Uniform} (h : Collected found) (u : Uniform) :
    distinct (found ++ [u]) = if ∃ v ∈ found, u.repeats v then found else found ++ [u] := by
  induction found with
  | nil => simp [distinct, List.eraseDupsBy_cons]
  | cons first found ih =>
    obtain ⟨hkept, hfound⟩ := h.of_cons
    rw [List.cons_append, distinct_cons, List.filter_append, hkept, List.filter_singleton]
    by_cases hfirst : u.repeats first
    · rw [if_pos ⟨first, List.mem_cons_self, hfirst⟩]
      simp [hfirst, hfound.distinct_eq]
    · simp [hfirst, ih hfound, apply_ite]

/-- Uniforms with different names are consistent. -/
theorem Collected.consistent {found : List Uniform} (h : Collected found) : Consistent found := by
  intro u hu v hv hname
  rw [List.inj_on_of_nodup_map h.nodup hu hv hname]

/-- A further uniform is consistent with uniforms of different names if it repeats the one of its
name, if there is one. -/
theorem Collected.consistent_concat_iff {found : List Uniform} (h : Collected found) {u : Uniform} :
    Consistent (found ++ [u]) ↔
      ∀ v ∈ found, v.name = u.name → Text.collapse v.text = Text.collapse u.text := by
  constructor
  · intro hconsistent v hv
    exact hconsistent v (List.mem_append_left _ hv) u (List.mem_append_right _ List.mem_cons_self)
  · intro hnew v hv w hw hname
    rw [List.mem_append, List.mem_singleton] at hv hw
    rcases hv with hv | rfl <;> rcases hw with hw | rfl
    · exact h.consistent v hv w hw hname
    · exact hnew v hv hname
    · exact (hnew w hw hname.symm).symm
    · rfl

/-- Consistent uniforms have different names when repeated ones are dropped. -/
theorem collected_distinct {us : List Uniform} (hread : ∀ u ∈ us, u.IsRead)
    (h : Consistent us) : Collected (distinct us) := by
  refine ⟨fun u hu => hread u (mem_of_mem_distinct hu), ?_⟩
  induction us using distinct_induction with
  | nil => exact List.nodup_nil
  | cons u us ih =>
    rw [distinct_cons, List.map_cons, List.nodup_cons]
    have hmem : ∀ v ∈ us.filter (fun v => !v.repeats u), v ∈ u :: us := fun v hv =>
      List.mem_cons_of_mem u (List.mem_filter.1 hv).1
    constructor
    · intro hname
      obtain ⟨v, hv, hname⟩ := List.mem_map.1 hname
      have hv := mem_of_mem_distinct hv
      have htext := h v (hmem v hv) u List.mem_cons_self hname
      simp [repeats_iff.2 htext] at hv
    · exact ih (fun v hv => hread v (hmem v hv)) (h.subset hmem)

/-! ## One line -/

/-- A line is added if it is read and is consistent with what was found before, and then it is
dropped if it repeats that. -/
theorem addLine_eq_ok_iff {found found' : Array Uniform} {line : Stage × String}
    (hfound : Collected found.toList) :
    addLine found line = .ok found' ↔ ∃ u, parse line.1 line.2 = .ok u ∧
      Consistent (found.toList ++ [u]) ∧ found'.toList = distinct (found.toList ++ [u]) := by
  rw [addLine, Outcome.bind_eq_ok_iff]
  refine exists_congr fun u => and_congr_right fun hu => ?_
  have hu : u.IsRead := isRead_of_parse hu
  rw [hfound.consistent_concat_iff, hfound.distinct_concat]
  cases hfind : found.find? (·.name == u.name) with
  | none =>
    have hnone : ∀ v ∈ found.toList, v.name ≠ u.name := by
      simpa [Array.find?_eq_none] using hfind
    have hnew : ¬ ∃ v ∈ found.toList, u.repeats v := by
      rintro ⟨v, hv, hrepeats⟩
      have hdeclarator := toDeclarator_eq_of_repeats hu (hfound.isRead v hv) hrepeats
      exact hnone v hv (congrArg (·.name) hdeclarator).symm
    show Except.ok (found.push u) = .ok found' ↔ _
    rw [if_neg hnew, and_iff_right fun v hv hname => absurd hname (hnone v hv), Except.ok.injEq,
      ← Array.toList_inj, Array.toList_push, eq_comm]
  | some first =>
    have hname : first.name = u.name := by simpa using Array.find?_some hfind
    have hmem : first ∈ found.toList := (Array.mem_of_find?_eq_some hfind).val
    -- the one of that name is the only one
    have hsame : (∀ v ∈ found.toList, v.name = u.name →
        Text.collapse v.text = Text.collapse u.text) ↔
          Text.words first.text = Text.words u.text := by
      rw [← Text.collapse_inj]
      constructor
      · exact fun h => h first hmem hname
      · intro h v hv hvname
        rwa [List.inj_on_of_nodup_map hfound.nodup hv hmem (hvname.trans hname.symm)]
    rw [hsame]
    dsimp only
    split
    · next hwords =>
      have hrepeats : u.repeats first := repeats_iff.2 (Text.collapse_inj.2 hwords.symm)
      show Except.ok found = .ok found' ↔ _
      rw [if_pos ⟨first, hmem, hrepeats⟩, and_iff_right hwords, Except.ok.injEq,
        ← Array.toList_inj, eq_comm]
    · next hwords => exact iff_of_false nofun fun h => hwords h.1

/-- A line that is refused is not read, or conflicts with one found before. -/
theorem addLine_eq_error {found : Array Uniform} {line : Stage × String} {cause : LinkError}
    (h : addLine found line = .error cause) :
    (∃ fault, Declarator.parse line.2 = .error fault ∧
        cause = Uniform.cause line.1 line.2 fault) ∨
      ∃ u, parse line.1 line.2 = .ok u ∧ ∃ first ∈ found, first.name = u.name ∧
        Text.collapse first.text ≠ Text.collapse u.text ∧
        cause = .conflictingUniforms u.name first.text u.text := by
  rw [addLine, Outcome.bind_eq_error_iff] at h
  obtain hparse | ⟨u, hu, h⟩ := h
  · rw [parse] at hparse
    cases hfault : Declarator.parse line.2 with
    | ok d =>
      rw [hfault] at hparse
      contradiction
    | error fault =>
      rw [hfault] at hparse
      exact .inl ⟨fault, rfl, (Except.error.inj hparse).symm⟩
  · right
    refine ⟨u, hu, ?_⟩
    cases hfind : found.find? (·.name == u.name) with
    | none =>
      rw [hfind] at h
      contradiction
    | some first =>
      rw [hfind] at h
      dsimp only at h
      split at h
      · contradiction
      · next hwords =>
        refine ⟨first, Array.mem_of_find?_eq_some hfind, ?_, ?_, (Except.error.inj h).symm⟩
        · simpa using Array.find?_some hfind
        · rwa [Ne, Text.collapse_inj]

/-! ## All lines -/

/-- Reads all lines. -/
def parseAll (lines : List (Stage × String)) : Except LinkError (List Uniform) :=
  lines.mapM fun line => parse line.1 line.2

/-- The lines are read one after the other. -/
theorem parseAll_cons_eq_ok_iff {line : Stage × String} {lines : List (Stage × String)}
    {us : List Uniform} : parseAll (line :: lines) = .ok us ↔
      ∃ u, parse line.1 line.2 = .ok u ∧ ∃ rest, parseAll lines = .ok rest ∧ us = u :: rest := by
  simp only [parseAll, Outcome.mapM_eq_ok_iff, List.forall₂_cons_left_iff]
  exact ⟨fun ⟨u, rest, hu, hrest, h⟩ => ⟨u, hu, rest, hrest, h⟩,
    fun ⟨u, hu, rest, hrest, h⟩ => ⟨u, rest, hu, hrest, h⟩⟩

/-- What was read from lines is what their texts declare. -/
theorem isRead_of_parseAll {lines : List (Stage × String)} {us : List Uniform}
    (h : parseAll lines = .ok us) : ∀ u ∈ us, u.IsRead := by
  intro u hu
  obtain ⟨line, -, hline⟩ := (Outcome.mem_iff_of_mapM_eq_ok h).1 hu
  exact isRead_of_parse hline

/-- Lines are added if all are read and are consistent with each other and with what was found
before, and then those are dropped that repeat earlier ones. -/
theorem foldlM_addLine_eq_ok_iff {lines : List (Stage × String)} {found out : Array Uniform}
    (hfound : Collected found.toList) :
    lines.foldlM addLine found = .ok out ↔ ∃ us, parseAll lines = .ok us ∧
      Consistent (found.toList ++ us) ∧ out.toList = distinct (found.toList ++ us) := by
  induction lines generalizing found with
  | nil =>
    show Except.ok found = .ok out ↔ ∃ us, Except.ok [] = .ok us ∧ _
    simp only [Except.ok.injEq, exists_eq_left', List.append_nil]
    rw [and_iff_right hfound.consistent, hfound.distinct_eq, Array.toList_inj, eq_comm]
  | cons line lines ih =>
    simp only [List.foldlM_cons, Outcome.bind_eq_ok_iff, parseAll_cons_eq_ok_iff]
    -- what is found behind the line `line`, which is read as `u`
    have hrest : ∀ u, u.IsRead → ∀ found' : Array Uniform, Consistent (found.toList ++ [u]) →
        found'.toList = distinct (found.toList ++ [u]) →
        (lines.foldlM addLine found' = .ok out ↔ ∃ us, parseAll lines = .ok us ∧
          Consistent (found.toList ++ u :: us) ∧
            out.toList = distinct (found.toList ++ u :: us)) := by
      intro u hu found' hconsistent hfound'
      have hread : ∀ v ∈ found.toList ++ [u], v.IsRead := by
        rw [List.forall_mem_append, List.forall_mem_singleton]
        exact ⟨hfound.isRead, hu⟩
      rw [ih (hfound' ▸ collected_distinct hread hconsistent), hfound']
      simp only [consistent_distinct_append hread, distinct_distinct_append, List.append_assoc,
        List.singleton_append]
    constructor
    · rintro ⟨found', hadd, hout⟩
      obtain ⟨u, hu, hconsistent, hfound'⟩ := (addLine_eq_ok_iff hfound).1 hadd
      obtain ⟨us, hus, h⟩ := (hrest u (isRead_of_parse hu) found' hconsistent hfound').1 hout
      exact ⟨u :: us, ⟨u, hu, us, hus, rfl⟩, h⟩
    · rintro ⟨-, ⟨u, hu, us, hus, rfl⟩, h⟩
      have hconsistent : Consistent (found.toList ++ [u]) := h.1.subset (by simp)
      have hfound' : (distinct (found.toList ++ [u])).toArray.toList =
          distinct (found.toList ++ [u]) := List.toList_toArray
      exact ⟨_, (addLine_eq_ok_iff hfound).2 ⟨u, hu, hconsistent, hfound'⟩,
        (hrest u (isRead_of_parse hu) _ hconsistent hfound').2 ⟨us, hus, h⟩⟩

/-- Lines are merged if all are read and are consistent, and then those are dropped that repeat
earlier ones. -/
theorem merge_eq_ok_iff {lines : List (Stage × String)} {us : List Uniform} :
    merge lines = .ok us ↔
      ∃ all, parseAll lines = .ok all ∧ Consistent all ∧ us = distinct all := by
  have hempty : Collected (#[] : Array Uniform).toList := ⟨nofun, List.nodup_nil⟩
  simp only [merge, Outcome.map_eq_ok_iff, foldlM_addLine_eq_ok_iff hempty, List.nil_append]
  constructor
  · rintro ⟨out, ⟨all, hall, hconsistent, hout⟩, rfl⟩
    exact ⟨all, hall, hconsistent, hout⟩
  · rintro ⟨all, hall, hconsistent, rfl⟩
    exact ⟨(distinct all).toArray, ⟨all, hall, hconsistent, List.toList_toArray⟩,
      List.toList_toArray⟩

/-- What is merged was read, and no two uniforms have one name. -/
theorem collected_of_merge {lines : List (Stage × String)} {us : List Uniform}
    (h : merge lines = .ok us) : Collected us := by
  obtain ⟨all, hall, hconsistent, rfl⟩ := merge_eq_ok_iff.1 h
  exact collected_distinct (isRead_of_parseAll hall) hconsistent

/-- A text is read from a line if it is read as a declarator. -/
theorem exists_parse_eq_ok_iff {stage : Stage} {text : String} :
    (∃ u, parse stage text = .ok u) ↔ ∃ d, Declarator.parse text = .ok d := by
  simp only [parse_eq_ok_iff]
  exact ⟨fun ⟨u, hu, _, _⟩ => ⟨u.toDeclarator, hu⟩, fun ⟨d, hd⟩ => ⟨⟨d, text, stage⟩, hd, rfl, rfl⟩⟩

/-- Lines are read as what their texts declare. -/
theorem mem_parseAll_iff {lines : List (Stage × String)} {us : List Uniform}
    (h : parseAll lines = .ok us) {text : String} {d : Declarator} :
    (∃ u ∈ us, u.text = text ∧ u.toDeclarator = d) ↔
      (∃ line ∈ lines, line.2 = text) ∧ Declarator.parse text = .ok d := by
  simp only [Outcome.mem_iff_of_mapM_eq_ok h, parse_eq_ok_iff]
  constructor
  · rintro ⟨u, ⟨line, hline, hu, htext, -⟩, rfl, rfl⟩
    exact ⟨⟨line, hline, htext.symm⟩, htext ▸ hu⟩
  · rintro ⟨⟨line, hline, rfl⟩, hd⟩
    exact ⟨⟨d, line.2, line.1⟩, ⟨line, hline, hd, rfl, rfl⟩, rfl, rfl⟩

/-- Lines are merged if each is read, and those of one name are equal when their blanks are
collapsed. -/
theorem exists_merge_eq_ok_iff (lines : List (Stage × String)) :
    (∃ us, merge lines = .ok us) ↔
      (∀ text ∈ lines.map (·.2), ∃ d, Declarator.parse text = .ok d) ∧
      ∀ text ∈ lines.map (·.2), ∀ text' ∈ lines.map (·.2), ∀ d d', Declarator.parse text = .ok d →
        Declarator.parse text' = .ok d' → d.name = d'.name →
          Text.collapse text = Text.collapse text' := by
  have hread : (∃ all, parseAll lines = .ok all) ↔
      ∀ text ∈ lines.map (·.2), ∃ d, Declarator.parse text = .ok d := by
    simp only [parseAll, Outcome.exists_mapM_eq_ok_iff, exists_parse_eq_ok_iff, List.forall_mem_map]
  rw [← hread]
  simp only [merge_eq_ok_iff]
  constructor
  · rintro ⟨-, all, hall, hconsistent, -⟩
    refine ⟨⟨all, hall⟩, fun text htext text' htext' d d' hd hd' hname => ?_⟩
    obtain ⟨u, hu, rfl, rfl⟩ := (mem_parseAll_iff hall).2 ⟨List.mem_map.1 htext, hd⟩
    obtain ⟨v, hv, rfl, rfl⟩ := (mem_parseAll_iff hall).2 ⟨List.mem_map.1 htext', hd'⟩
    exact hconsistent u hu v hv hname
  · rintro ⟨⟨all, hall⟩, hsame⟩
    refine ⟨_, all, hall, fun u hu v hv hname => ?_, rfl⟩
    obtain ⟨htext, hd⟩ := (mem_parseAll_iff hall).1 ⟨u, hu, rfl, rfl⟩
    obtain ⟨htext', hd'⟩ := (mem_parseAll_iff hall).1 ⟨v, hv, rfl, rfl⟩
    exact hsame _ (List.mem_map.2 htext) _ (List.mem_map.2 htext') _ _ hd hd' hname

/-- Merged uniforms declare what the lines do. -/
theorem exists_mem_merge_iff {lines : List (Stage × String)} {us : List Uniform}
    (h : merge lines = .ok us) {d : Declarator} :
    (∃ u ∈ us, u.toDeclarator = d) ↔ ∃ text ∈ lines.map (·.2), Declarator.parse text = .ok d := by
  obtain ⟨all, hall, -, rfl⟩ := merge_eq_ok_iff.1 h
  constructor
  · rintro ⟨u, hu, rfl⟩
    obtain ⟨htext, hd⟩ := (mem_parseAll_iff hall).1 ⟨u, mem_of_mem_distinct hu, rfl, rfl⟩
    exact ⟨u.text, List.mem_map.2 htext, hd⟩
  · rintro ⟨text, htext, hd⟩
    obtain ⟨u, hu, rfl, rfl⟩ := (mem_parseAll_iff hall).2 ⟨List.mem_map.1 htext, hd⟩
    obtain ⟨v, hv, huv⟩ := exists_mem_distinct hu
    have hread := isRead_of_parseAll hall
    exact ⟨v, hv, (toDeclarator_eq_of_repeats (hread u hu) (hread v (mem_of_mem_distinct hv))
      huv).symm⟩

end Uniform

end ShaderInterface
