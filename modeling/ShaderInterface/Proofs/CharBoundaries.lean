import ShaderInterface.Proofs.Places

/-!
# Bytes and the boundaries of characters

A reader that looks at one byte after the other sees a character beyond ASCII as several bytes, all
of which have a number that no character of ASCII has. A test that tells characters of ASCII apart
and takes all others for the same comes to the same on the bytes of a text as on its characters
(`takeWhile_octets`), and where characters begin and end the bytes of a text can be cut
(`Bytewise.cut_eq`).
-/

namespace ShaderInterface.Source

open Code (utf8)

/-! ## Bytes of one character -/

/-- The bytes of a character, each as the character of that number. -/
def charOctets (c : Char) : List Char :=
  (String.utf8EncodeChar c).map Char.ofUInt8

/-- A character of ASCII has one byte, of its own number. -/
theorem charOctets_of_lt {c : Char} (h : c.toNat < 128) : charOctets c = [c] := by
  have hsmall : c.val.toNat ≤ 0x7f := Nat.le_of_lt_succ h
  have hbyte : (UInt8.ofNat c.val.toNat).toNat = c.val.toNat :=
    UInt8.toNat_ofNat_of_lt' (Nat.lt_of_le_of_lt hsmall (by decide))
  rw [charOctets, String.utf8EncodeChar, if_pos hsmall]
  exact congrArg ([·]) (Char.ext (UInt32.toNat_inj.1 hbyte))

/-- No character has no bytes. -/
theorem charOctets_ne_nil (c : Char) : charOctets c ≠ [] := by
  rw [charOctets, Ne, List.map_eq_nil_iff]
  exact String.utf8EncodeChar_ne_nil

/-- A character beyond ASCII is no character of ASCII. -/
theorem ne_of_le_of_lt {c a : Char} (hc : 128 ≤ c.toNat) (ha : a.toNat < 128) : c ≠ a := by
  rintro rfl
  exact Nat.not_lt.2 hc ha

/-- All bytes of a character beyond ASCII are beyond ASCII. -/
theorem le_toNat_of_mem_charOctets {c d : Char} (hc : 128 ≤ c.toNat) (hd : d ∈ charOctets c) :
    128 ≤ d.toNat := by
  obtain ⟨b, hb, rfl⟩ := List.mem_map.1 hd
  have hlarge : ¬ c.val.toNat ≤ 0x7f := Nat.not_le.2 hc
  have hbyte : ∀ n, 128 ≤ n → n < 256 → 128 ≤ (Char.ofUInt8 (UInt8.ofNat n)).toNat := by
    intro n hle hlt
    show 128 ≤ (UInt8.ofNat n).toNat
    rwa [UInt8.toNat_ofNat_of_lt' hlt]
  rw [String.utf8EncodeChar, if_neg hlarge] at hb
  repeat' split at hb
  all_goals
    simp only [List.mem_cons, List.not_mem_nil, or_false] at hb
    obtain rfl | rfl | rfl | rfl | rfl := hb <;> apply hbyte <;> omega

/-- The test takes all characters beyond ASCII for the same. -/
def TellsAscii (p : Char → Bool) : Prop :=
  ∀ c d : Char, 128 ≤ c.toNat → 128 ≤ d.toNat → p c = p d

/-- Such a test tells of the bytes of a character what it tells of the character. -/
theorem TellsAscii.eq_of_mem_charOctets {p : Char → Bool} (hp : TellsAscii p) {c d : Char}
    (hd : d ∈ charOctets c) : p d = p c := by
  by_cases hc : c.toNat < 128
  · rw [charOctets_of_lt hc, List.mem_singleton] at hd
    rw [hd]
  · have hc := Nat.not_lt.1 hc
    exact hp d c (le_toNat_of_mem_charOctets hc hd) hc

/-! ## Bytes of a text -/

/-- The bytes of a run of characters, each as the character of that number. -/
def octets (cs : List Char) : List Char :=
  cs.flatMap charOctets

/-- The bytes of a source, each as the character of that number. -/
def sourceOctets (source : String) : List Char :=
  (utf8 source).map Char.ofUInt8

/-- The bytes of a source are those of its characters. -/
theorem sourceOctets_eq (source : String) : sourceOctets source = octets source.toList := by
  rw [sourceOctets, ← String.ofList_toList (s := source), utf8_ofList, List.map_flatMap,
    String.ofList_toList]
  rfl

/-- The first character stands first. -/
theorem octets_cons (c : Char) (cs : List Char) : octets (c :: cs) = charOctets c ++ octets cs :=
  rfl

/-- A first character of ASCII stands for itself. -/
theorem octets_cons_of_lt {c : Char} (h : c.toNat < 128) (cs : List Char) :
    octets (c :: cs) = c :: octets cs := by
  rw [octets_cons, charOctets_of_lt h]
  rfl

/-- The bytes of two texts stand in a row. -/
theorem octets_append (cs ds : List Char) : octets (cs ++ ds) = octets cs ++ octets ds :=
  List.flatMap_append

/-- There are as many bytes as are counted. -/
@[simp]
theorem length_octets (cs : List Char) : (octets cs).length = byteCount cs := by
  have hlength := congrArg List.length (sourceOctets_eq (String.ofList cs))
  rw [sourceOctets, List.length_map, Code.length_utf8, String.toList_ofList] at hlength
  exact hlength.symm

/-- Behind the bytes of a text stand those of the text behind it. -/
theorem drop_octets (before cs : List Char) :
    (octets (before ++ cs)).drop (byteCount before) = octets cs := by
  rw [octets_append, List.drop_left' (length_octets before)]

/-- In front of the bytes of a text stand those of the text in front of it. -/
theorem take_octets (before cs : List Char) :
    (octets (before ++ cs)).take (byteCount before) = octets before := by
  rw [octets_append, List.take_left' (length_octets before)]

section

variable {p : Char → Bool} (hp : TellsAscii p)
include hp

/-- A stretch of characters with a property has the bytes with that property. -/
theorem takeWhile_octets (cs : List Char) :
    (octets cs).takeWhile p = octets (cs.takeWhile p) := by
  induction cs with
  | nil => rfl
  | cons c cs ih =>
    have hall : ∀ d ∈ charOctets c, p d = p c := fun d hd => hp.eq_of_mem_charOctets hd
    rw [octets_cons]
    by_cases hc : p c
    · rw [List.takeWhile_append_of_pos fun d hd => (hall d hd).trans hc, ih,
        List.takeWhile_cons_of_pos hc, octets_cons]
    · obtain ⟨d, ds, hcons⟩ := List.exists_cons_of_ne_nil (charOctets_ne_nil c)
      have hd : ¬ p d := by
        rwa [hall d (hcons ▸ List.mem_cons_self)]
      rw [hcons, List.cons_append, List.takeWhile_cons_of_neg hd, List.takeWhile_cons_of_neg hc]
      rfl

/-- The first byte has a property if the first character does. -/
theorem any_head?_octets (cs : List Char) : (octets cs).head?.any p = cs.head?.any p := by
  cases cs with
  | nil => rfl
  | cons c cs =>
    obtain ⟨d, ds, hcons⟩ := List.exists_cons_of_ne_nil (charOctets_ne_nil c)
    rw [octets_cons, hcons, List.cons_append, List.head?_cons, List.head?_cons, Option.any_some,
      Option.any_some, hp.eq_of_mem_charOctets (hcons ▸ List.mem_cons_self)]

end

/-- A test for one character of ASCII takes all others for the same. -/
theorem tellsAscii_beq {a : Char} (ha : a.toNat < 128) : TellsAscii (· == a) := by
  have hne : ∀ c : Char, 128 ≤ c.toNat → (c == a) = false := fun c hc =>
    beq_eq_false_iff_ne.2 (ne_of_le_of_lt hc ha)
  exact fun c d hc hd => (hne c hc).trans (hne d hd).symm

/-- The opposite test tells as much. -/
theorem TellsAscii.not {p : Char → Bool} (h : TellsAscii p) : TellsAscii (! p ·) :=
  fun c d hc hd => congrArg (!·) (h c d hc hd)

/-- A character of ASCII is the first byte if it is the first character. -/
theorem head?_octets_eq_some_iff {a : Char} (ha : a.toNat < 128) (cs : List Char) :
    (octets cs).head? = some a ↔ cs.head? = some a := by
  have hany := any_head?_octets (tellsAscii_beq ha) cs
  have hiff : ∀ o : Option Char, o = some a ↔ o.any (· == a) = true := by
    intro o
    cases o <;> simp
  rw [hiff, hiff, hany]

/-- A character of ASCII is counted among the bytes as often as among the characters. -/
theorem count_octets {a : Char} (ha : a.toNat < 128) (cs : List Char) :
    (octets cs).count a = cs.count a := by
  induction cs with
  | nil => rfl
  | cons c cs ih =>
    rw [octets_cons, List.count_append, ih, List.count_cons, Nat.add_comm]
    by_cases hc : c.toNat < 128
    · rw [charOctets_of_lt hc, List.count_singleton]
    · have hc := Nat.not_lt.1 hc
      have hne : c ≠ a := ne_of_le_of_lt hc ha
      have hnone : a ∉ charOctets c := fun hmem =>
        Nat.not_lt.2 (le_toNat_of_mem_charOctets hc hmem) ha
      rw [List.count_eq_zero_of_not_mem hnone, if_neg (by simpa using hne)]

/-- A character of ASCII is among the bytes if it is among the characters. -/
theorem contains_octets {a : Char} (ha : a.toNat < 128) (cs : List Char) :
    (octets cs).contains a = cs.contains a := by
  rw [Bool.eq_iff_iff, List.contains_iff_mem, List.contains_iff_mem, ← List.count_pos_iff,
    ← List.count_pos_iff, count_octets ha]

/-! ## Cuts -/

/-- The byte is the first of a character of the source, or the source ends in front of it. -/
def IsBoundary (source : String) (i : Nat) : Prop :=
  (String.Pos.Raw.mk i).IsValid source
deriving Decidable

/-- Between any two characters is a boundary. -/
theorem isBoundary_byteCount {source : String} {before cs : List Char}
    (h : source.toList = before ++ cs) : IsBoundary source (byteCount before) := by
  refine String.Pos.Raw.isValid_iff_exists_append.2
    ⟨String.ofList before, String.ofList cs, ?_, rfl⟩
  rw [← String.ofList_append, ← h, String.ofList_toList]

/-- The bytes of a text are read as the text. -/
theorem fromUTF8?_utf8 (s : String) : String.fromUTF8? (utf8 s).toByteArray = some s := by
  have hbytes : (utf8 s).toByteArray = s.toByteArray := by
    refine ByteArray.ext ?_
    rw [List.data_toByteArray, utf8, Array.toArray_toList]
  rw [hbytes, String.fromUTF8?, dif_pos s.isValidUTF8]
  rfl

namespace Bytewise

/-- Why a byte-wise reading of a source stops. -/
inductive Stop where
  /-- A text is cut out of order, out of its bytes or inside of a character. -/
  | badCut
  /-- What is cut out is not in UTF-8. -/
  | notUtf8
  /-- The source is refused. -/
  | refused (cause : LinkError)
deriving DecidableEq, Repr

/-- The text between two bytes of a source. -/
def cut (source : String) (start stop : Nat) : Except Stop String :=
  if start ≤ stop ∧ IsBoundary source start ∧ IsBoundary source stop then
    match String.fromUTF8? (slice source start stop).toByteArray with
    | some text => .ok text
    | none => .error .notUtf8
  else .error .badCut

/-- Characters that stand in a source are cut out at their place. -/
theorem cut_eq {source : String} {before cs behind : List Char}
    (h : source.toList = before ++ (cs ++ behind)) :
    cut source (byteCount before) (byteCount (before ++ cs)) = .ok (String.ofList cs) := by
  have hstop : source.toList = (before ++ cs) ++ behind := by
    rw [h, List.append_assoc]
  have hle : byteCount before ≤ byteCount (before ++ cs) := by
    rw [byteCount_append]
    exact Nat.le_add_right _ _
  rw [cut, if_pos ⟨hle, isBoundary_byteCount h, isBoundary_byteCount hstop⟩, byteCount_append,
    slice_eq h, fromUTF8?_utf8]

/-- Characters at the beginning of a source are cut out there. -/
theorem cut_start_eq {source : String} {cs behind : List Char} (h : source.toList = cs ++ behind) :
    cut source 0 (byteCount cs) = .ok (String.ofList cs) := by
  have hcut := @cut_eq source [] cs behind h
  rwa [List.nil_append, byteCount_nil] at hcut

/-- Characters at the end of a source are cut out there. -/
theorem cut_end_eq {source : String} {before cs : List Char} (h : source.toList = before ++ cs) :
    cut source (byteCount before) source.utf8ByteSize = .ok (String.ofList cs) := by
  have hcut := @cut_eq source before cs [] (by rw [h, List.append_nil])
  rwa [← h, byteCount_toList] at hcut

end Bytewise

end ShaderInterface.Source
