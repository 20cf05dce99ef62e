import Mathlib.Tactic.Positivity
import ScopeLang.Proofs.Settings.Spelling

/-!
# Settings documents are read as they are spelled

Whatever of its choices the writer of a settings document makes, the reader finds the same entries
in it: the defaults are overridden by what is listed, and the outcome is checked like any settings.
Since settings are written as such a document, they come back from it.

## Main statements

* `readQuoted_spelled` — texts in quotes.
* `readNumber_repr` — numbers that fit 64 bits.
* `readMembers_spelled` — the members of an object.
* `settings_survive_documents` — whole documents.
-/

namespace ScopeLang.Settings

variable {c : Char} {cs w v rest : List Char} {n : Nat}

/-! ### Blanks -/

theorem skipBlank_append (h : Blank w) (rest : List Char) : skipBlank (w ++ rest) = skipBlank rest := by
  induction w with
  | nil => rfl
  | cons c w ih =>
    have blank : isJsonBlank c = true := by
      have : c ∈ [' ', '\n', '\t', '\r'] := h c (by simp)
      simpa [isJsonBlank, or_assoc] using this
    rw [List.cons_append, skipBlank, List.dropWhile_cons_of_pos blank]
    exact ih fun d hd => h d (by simp [hd])

theorem skipBlank_mark (h : isJsonBlank c = false) (rest : List Char) :
    skipBlank (c :: rest) = c :: rest := by
  rw [skipBlank, List.dropWhile_cons_of_neg (by simp [h])]

/-! ### Texts in quotes -/

theorem hexValue?_of_hexDigit (h : HexDigit c n) : hexValue? c = some n := by
  have all : ∀ v < 16, hexValue? (Nat.digitChar v) = some v ∧
      hexValue? (Nat.digitChar v).toUpper = some v := by decide
  obtain ⟨hn, rfl | rfl⟩ := h
  · exact (all n hn).1
  · exact (all n hn).2

theorem readUnit_spelled (h : UnitSpelled n w) (rest : List Char) : readUnit (w ++ rest) = .ok n := by
  obtain ⟨ha, hb, hc, hd⟩ := h
  simp [readUnit, hexValue?_of_hexDigit ha, hexValue?_of_hexDigit hb, hexValue?_of_hexDigit hc,
    hexValue?_of_hexDigit hd]

theorem UnitSpelled.length_eq (h : UnitSpelled n w) : w.length = 4 := by
  cases h
  rfl

/-- No character has the code of half a character. -/
theorem not_half (c : Char) : isLeading c.toNat = false ∧ isTrailing c.toNat = false := by
  have : c.toNat < 0xD800 ∨ 0xDFFF < c.toNat ∧ c.toNat < 0x110000 := c.valid
  simp only [isLeading, isTrailing, Bool.and_eq_false_iff, decide_eq_false_iff_not]
  omega

/-- An escape is read from behind its backslash. -/
theorem readEscape_spelled (h : CharSpelled c ('\\' :: w)) (rest : List Char) :
    readEscape (w ++ rest) = .ok (c, w.length) := by
  generalize hu : '\\' :: w = u at h
  cases h with
  | plain _ hslash _ => exact absurd (List.cons.inj hu).1.symm hslash
  | short hmem =>
    obtain rfl : w = [_] := (List.cons.inj hu).2
    simp only [shortEscapes, List.mem_cons, Prod.mk.injEq, List.not_mem_nil, or_false] at hmem
    rcases hmem with ⟨rfl, rfl⟩ | ⟨rfl, rfl⟩ | ⟨rfl, rfl⟩ | ⟨rfl, rfl⟩ | ⟨rfl, rfl⟩ | ⟨rfl, rfl⟩ |
      ⟨rfl, rfl⟩ | ⟨rfl, rfl⟩ <;> rfl
  | code hw =>
    obtain rfl := (List.cons.inj hu).2
    obtain ⟨leading, trailing⟩ := not_half c
    simp [readEscape, readUnit_spelled hw, leading, trailing, hw.length_eq]
  | @pair _ high low v v' hhigh hlow hc hv hv' =>
    obtain rfl : w = 'u' :: (v ++ '\\' :: 'u' :: v') := (List.cons.inj hu).2
    have leading : isLeading (0xD800 + high) = true := by simp [isLeading]; omega
    have trailing : isTrailing (0xDC00 + low) = true := by simp [isTrailing]; omega
    have first : isTrailing (0xD800 + high) = false := by simp [isTrailing]; omega
    have code : Char.ofNat (0x10000 + high * 0x400 + low) = c := by rw [← hc, Char.ofNat_toNat]
    simp only [List.cons_append, List.append_assoc, readEscape, readUnit_spelled hv, first, leading,
      List.drop_left' hv.length_eq, readTrailing, readUnit_spelled hv', trailing]
    simp [code, hv.length_eq, hv'.length_eq]

/-- A character is read in each of its spellings. -/
theorem readQuotedFrom_char (h : CharSpelled c w) (found rest : List Char) :
    readQuotedFrom found (w ++ rest) = readQuotedFrom (c :: found) rest := by
  have escaped {v : List Char} (h : CharSpelled c ('\\' :: v)) :
      readQuotedFrom found ('\\' :: v ++ rest) = readQuotedFrom (c :: found) rest := by
    rw [List.cons_append, readQuotedFrom]
    simp [readEscape_spelled h]
  cases h with
  | plain hquote hslash hc =>
    rw [List.singleton_append, readQuotedFrom, if_neg hquote, if_neg hslash, if_neg (by omega)]
  | short hmem => exact escaped (.short hmem)
  | code hw => exact escaped (.code hw)
  | pair hhigh hlow hc hw hv => exact escaped (.pair hhigh hlow hc hw hv)

theorem readQuotedFrom_text (h : TextSpelled cs w) (found rest : List Char) :
    readQuotedFrom found (w ++ '"' :: rest) = .ok (String.ofList (found.reverse ++ cs), rest) := by
  induction h generalizing found with
  | nil => simp [readQuotedFrom]
  | cons hc _ ih => simp [List.append_assoc, readQuotedFrom_char hc, ih]

/-- A text is read in each of its spellings. -/
theorem readQuoted_spelled {text : String} (h : TextSpelled text.toList w) (rest : List Char) :
    readQuoted (w ++ '"' :: rest) = .ok (text, rest) := by
  rw [readQuoted, readQuotedFrom_text h]
  simp

/-! ### Numbers -/

/-- The text does not go on with anything that could belong to a number. -/
def EndsNumber (rest : List Char) : Prop :=
  ∀ c ∈ rest.head?, c.isDigit = false ∧ c ≠ '.' ∧ c ≠ 'e' ∧ c ≠ 'E'

theorem digitsValue_repr (n : Nat) : Decimal.digitsValue (Nat.repr n).toList = n := by
  rw [Nat.toList_repr, Decimal.digitsValue, ← Nat.ofDigitChars_eq_foldl,
    Nat.ofDigitChars_ten_toDigits]

theorem isDigit_of_mem_repr (hc : c ∈ (Nat.repr n).toList) : c.isDigit = true := by
  rw [Nat.toList_repr] at hc
  exact Nat.isDigit_of_mem_toDigits (by decide) (by decide) hc

theorem exists_repr_eq_cons (n : Nat) :
    ∃ d ds, (Nat.repr n).toList = d :: ds ∧ d.isDigit = true := by
  obtain ⟨d, ds, hd⟩ := List.exists_cons_of_ne_nil (l := (Nat.repr n).toList)
    (by rw [Nat.toList_repr]; exact Nat.toDigits_ne_nil)
  exact ⟨d, ds, hd, isDigit_of_mem_repr (by rw [hd]; simp)⟩

theorem skipBlank_repr (n : Nat) (rest : List Char) :
    skipBlank ((Nat.repr n).toList ++ rest) = (Nat.repr n).toList ++ rest := by
  obtain ⟨d, ds, hd, hdigit⟩ := exists_repr_eq_cons n
  have no_blank : ∀ c ∈ [' ', '\n', '\t', '\r'], c.isDigit = false := by simp [Char.isDigit]
  have : d ∉ [' ', '\n', '\t', '\r'] := fun hmem => by simp [no_blank d hmem] at hdigit
  rw [hd, List.cons_append, skipBlank_mark]
  simpa [isJsonBlank, and_assoc] using this

/-- Only zero is written with a leading zero. -/
theorem eq_zero_of_head?_repr (n : Nat) (h : (Nat.repr n).toList.head? = some '0') : n = 0 := by
  rw [Nat.toList_repr] at h
  induction n using Nat.strongRecOn with
  | ind n ih =>
    rw [Nat.toDigits_eq_if (by decide)] at h
    split at h
    · have all : ∀ d < 10, ([Nat.digitChar d].head? = some '0') → d = 0 := by decide
      exact all n ‹_› h
    · rw [List.head?_append_of_ne_nil _ Nat.toDigits_ne_nil] at h
      have := ih (n / 10) (by omega) h
      omega

theorem spanDigits_repr (n : Nat) (h : EndsNumber rest) :
    Decimal.spanDigits ((Nat.repr n).toList ++ rest) = ((Nat.repr n).toList, rest) := by
  have stops : ∀ c ∈ rest.head?, c.isDigit = false := fun c hc => (h c hc).1
  rw [Decimal.spanDigits, List.takeWhile_append_of_pos fun c => isDigit_of_mem_repr,
    List.dropWhile_append_of_pos fun c => isDigit_of_mem_repr]
  cases rest with
  | nil => simp
  | cons c rest => simp [stops c rfl]

/-- All digits of a number that fits 64 bits are taken. -/
theorem appendFitting_eq {value : Nat} {digits : List Char}
    (h : Nat.ofDigitChars 10 digits value < 2 ^ 64) :
    Numeral.appendFitting value digits = (Nat.ofDigitChars 10 digits value, digits.length) := by
  induction digits generalizing value with
  | nil => rfl
  | cons d ds ih =>
    rw [Nat.ofDigitChars_cons] at h
    -- appending digits makes a number no smaller, so every prefix fits too
    have fits : 10 * value + (d.toNat - '0'.toNat) < Nat.pow 2 64 := by
      refine lt_of_le_of_lt ?_ h
      rw [Nat.ofDigitChars_eq_ofDigitChars_zero]
      exact (Nat.le_mul_of_pos_left _ (by positivity)).trans (Nat.le_add_right _ _)
    simp only [Numeral.appendFitting, fits, if_true, ih h, Nat.ofDigitChars_cons, List.length_cons]

theorem leading_repr (h : n < 2 ^ 64) :
    (⟨false, (Nat.repr n).toList, none, none⟩ : Numeral).leading = (n, 0) := by
  have value : Nat.ofDigitChars 10 (Nat.repr n).toList 0 = n := by
    rw [Nat.toList_repr, Nat.ofDigitChars_ten_toDigits]
  have taken : Numeral.appendFitting 0 (Nat.repr n).toList = (n, (Nat.repr n).toList.length) := by
    rw [appendFitting_eq (by rwa [value]), value]
  simp only [Numeral.leading, taken, Option.getD_none, Numeral.appendFitting]
  simp

/-- Rounding does no more than double a number. -/
theorem roundWhole_le (hn : n ≠ 0) : Decimal.roundWhole n ≤ 2 * n := by
  have unit_le : 2 ^ (n.log2 - 52) ≤ n :=
    (Nat.pow_le_pow_right (by decide) (Nat.sub_le _ _)).trans (Nat.log2_self_le hn)
  have whole : n / 2 ^ (n.log2 - 52) * 2 ^ (n.log2 - 52) ≤ n := Nat.div_mul_le_self _ _
  simp only [Decimal.roundWhole, Nat.pow_eq]
  split
  · rw [Nat.add_mul, one_mul]
    omega
  · omega

theorem overflows_repr (h : n < 2 ^ 64) :
    (⟨false, (Nat.repr n).toList, none, none⟩ : Numeral).overflows = false := by
  simp only [Numeral.overflows, leading_repr h]
  by_cases hn : n = 0
  · simp [hn]
  · have one : Decimal.roundWhole (Nat.pow 10 (0 : Int).toNat) = 1 := by decide
    have bound : 2 ^ 65 < Decimal.infinityBound := by decide +kernel
    have := roundWhole_le hn
    rw [one]
    simp
    omega

theorem readWhole_repr (n : Nat) (h : EndsNumber rest) :
    readWhole ((Nat.repr n).toList ++ rest) = .ok ((Nat.repr n).toList, rest) := by
  have digits : readDigits ((Nat.repr n).toList ++ rest) = .ok ((Nat.repr n).toList, rest) := by
    rw [← spanDigits_repr n h]
    obtain ⟨d, ds, hd, hdigit⟩ := exists_repr_eq_cons n
    simp only [hd, List.cons_append, readDigits, hdigit, if_true]
  simp only [readWhole, digits]
  rw [if_neg]
  simp only [Bool.and_eq_true, decide_eq_true_eq, bne_iff_ne, not_and, not_not]
  intro hzero
  rw [eq_zero_of_head?_repr n hzero]
  rfl

theorem readFraction_of_ends (h : EndsNumber rest) : readFraction rest = .ok (none, rest) := by
  unfold readFraction
  split
  · exact absurd rfl (h '.' rfl).2.1
  · rfl

theorem readExponent_of_ends (h : EndsNumber rest) : readExponent rest = .ok (none, rest) := by
  cases rest with
  | nil => rfl
  | cons c rest =>
    obtain ⟨-, -, he, hE⟩ := h c rfl
    simp [readExponent, he, hE]

/-- A number that fits 64 bits is read, if what follows it does not belong to it. -/
theorem readNumber_repr (hn : n < 2 ^ 64) (h : EndsNumber rest) :
    readNumber ((Nat.repr n).toList ++ rest) =
      .ok (⟨false, (Nat.repr n).toList, none, none⟩, rest) := by
  have whole := readWhole_repr n h
  have fits := overflows_repr hn
  obtain ⟨d, ds, hd, hdigit⟩ := exists_repr_eq_cons n
  have unsigned : d ≠ '-' := by
    rintro rfl
    exact absurd hdigit (by decide)
  rw [hd, List.cons_append] at whole ⊢
  rw [hd] at fits
  simp [readNumber, unsigned, whole, readFraction_of_ends h, readExponent_of_ends h, fits, bind,
    Except.bind]

/-- The depth of calls is read from its digits. -/
theorem readDepth_repr (n : UInt64) (h : EndsNumber rest) :
    readDepth ((Nat.repr n.toNat).toList ++ rest) = .ok (n, rest) := by
  have number := readNumber_repr n.toNat_lt h
  have natural : (⟨false, (Nat.repr n.toNat).toList, none, none⟩ : Numeral).natural? =
      some n.toNat := congrArg some (digitsValue_repr n.toNat)
  obtain ⟨d, ds, hd, hdigit⟩ := exists_repr_eq_cons n.toNat
  rw [hd] at number natural ⊢
  rw [List.cons_append] at number ⊢
  simp only [readDepth, hdigit, Bool.or_true, if_true, number, natural]
  rw [if_pos n.toNat_lt, UInt64.ofNat_toNat]

/-! ### Members -/

namespace Draft

/-- The draft with a further entry. -/
def add (d : Draft) : Entry → Draft
  | .maxCallDepth n => { d with maxCallDepth := some n }
  | .logTimeFormat format => { d with logTimeFormat := some format }

variable {d : Draft} {e : Entry} {es : List Entry}

theorem toSettings_add (d : Draft) (e : Entry) : (d.add e).toSettings = e.apply d.toSettings := by
  cases e <;> rfl

theorem toSettings_foldl (d : Draft) (es : List Entry) :
    (es.foldl add d).toSettings = es.foldl Entry.apply d.toSettings := by
  induction es generalizing d with
  | nil => rfl
  | cons e es ih => rw [List.foldl_cons, ih, toSettings_add, List.foldl_cons]

/-- An entry says nothing about the other field. -/
theorem has_add {f : Field} (hf : f ≠ e.field) : (d.add e).has f = d.has f := by
  cases e <;> cases f <;> first | rfl | exact absurd rfl hf

/-- The entries are about different fields, and the draft says nothing about these. -/
structure Lacks (d : Draft) (es : List Entry) : Prop where
  nodup : (es.map Entry.field).Nodup
  missing : ∀ e ∈ es, d.has e.field = false

theorem Lacks.tail (h : d.Lacks (e :: es)) : (d.add e).Lacks es := by
  obtain ⟨hne, hnodup⟩ := List.nodup_cons.1 h.nodup
  refine ⟨hnodup, fun e' he' => ?_⟩
  have other : e'.field ≠ e.field := fun heq => hne (heq ▸ List.mem_map_of_mem he')
  rw [has_add other, h.missing e' (by simp [he'])]

end Draft

variable {d : Draft} {e : Entry} {es : List Entry} {a b key value : List Char}

theorem Field.ofKey?_key (f : Field) : Field.ofKey? f.key = some f := by
  cases f <;> decide

/-- Behind a value stand blanks and one of two marks. -/
theorem endsNumber_blank (h : Blank b) (hc : c = ',' ∨ c = '\x7d') (rest : List Char) :
    EndsNumber (b ++ c :: rest) := by
  have all : ∀ c ∈ [' ', '\n', '\t', '\r', ',', '\x7d'],
      c.isDigit = false ∧ c ≠ '.' ∧ c ≠ 'e' ∧ c ≠ 'E' := by simp [Char.isDigit]
  intro x hx
  refine all x ?_
  cases b with
  | nil =>
    obtain rfl : c = x := by simpa using hx
    rcases hc with rfl | rfl <;> simp
  | cons y b =>
    obtain rfl : y = x := by simpa using hx
    have hy : y ∈ [' ', '\n', '\t', '\r'] := h y (by simp)
    exact List.mem_append_left [',', '\x7d'] hy

theorem readField_spelled (hb : Blank b) (hv : ValueSpelled e value) (h : EndsNumber rest) :
    readField d e.field (b ++ value ++ rest) = .ok (d.add e, rest) := by
  rw [List.append_assoc]
  cases hv with
  | number n =>
    simp only [Entry.field, readField, skipBlank_append hb, skipBlank_repr, readDepth_repr n h]
    rfl
  | text ht =>
    simp only [Entry.field, readField, skipBlank_append hb, List.cons_append, List.append_assoc]
    rw [skipBlank_mark (by decide)]
    simp only [readFormat, readQuoted_spelled ht]
    rfl

theorem readKey_spelled (hkey : TextSpelled e.field.key.toList key) (hb : Blank b)
    (hf : d.has e.field = false) :
    readKey d (key ++ '"' :: (b ++ ':' :: rest)) = .ok (⟨e.field, hf⟩, rest) := by
  simp only [readKey, readQuoted_spelled hkey, Field.ofKey?_key, hf, skipBlank_append hb]
  rw [dif_pos trivial, skipBlank_mark (by decide)]
  rfl

/-- The last member of an object, from behind its first quote on. -/
theorem readMembers_last (hkey : TextSpelled e.field.key.toList key) (ha : Blank a) (hb : Blank b)
    (hv : ValueSpelled e value) (hw : Blank w) (hf : d.has e.field = false) (rest : List Char) :
    readMembers d (key ++ '"' :: (a ++ ':' :: (b ++ value ++ (w ++ '\x7d' :: rest)))) =
      .ok (d.add e, rest) := by
  have field := readField_spelled (d := d) hb hv (endsNumber_blank hw (.inr rfl) rest)
  rw [readMembers, readKey_spelled hkey ha hf]
  simp only
  rw [field]
  simp only [skipBlank_append hw]
  rw [skipBlank_mark (by decide)]
  rfl

/-- A member that others follow. -/
theorem readMembers_more (hkey : TextSpelled e.field.key.toList key) (ha : Blank a) (hb : Blank b)
    (hv : ValueSpelled e value) (hw : Blank w) (hf : d.has e.field = false) {next : List Char}
    (hnext : skipBlank rest = '"' :: next) :
    readMembers d (key ++ '"' :: (a ++ ':' :: (b ++ value ++ (w ++ ',' :: rest)))) =
      readMembers (d.add e) next := by
  have field := readField_spelled (d := d) hb hv (endsNumber_blank hw (.inl rfl) rest)
  rw [readMembers, readKey_spelled hkey ha hf]
  simp only
  rw [field]
  simp only [skipBlank_append hw]
  rw [skipBlank_mark (by decide)]
  simp only [hnext]

/-- The members of an object are read one after the other. They begin with a quote, behind which
reading begins. -/
theorem readMembers_spelled (h : MembersSpelled es w) (hd : d.Lacks es) (rest : List Char) :
    ∃ next, skipBlank (w ++ '\x7d' :: rest) = '"' :: next ∧
      readMembers d next = .ok (es.foldl Draft.add d, rest) := by
  induction h generalizing d with
  | last hmember =>
    obtain ⟨ha, hb, hc, hd', hkey, hv⟩ := hmember
    simp only [List.append_assoc, List.cons_append, skipBlank_append ha]
    rw [skipBlank_mark (by decide)]
    refine ⟨_, rfl, ?_⟩
    have read := readMembers_last hkey hb hc hv hd' (hd.missing _ (by simp)) rest
    simpa using read
  | cons hmember _ ih =>
    obtain ⟨ha, hb, hc, hd', hkey, hv⟩ := hmember
    obtain ⟨next, hnext, htail⟩ := ih hd.tail
    simp only [List.append_assoc, List.cons_append, skipBlank_append ha]
    rw [skipBlank_mark (by decide)]
    refine ⟨_, rfl, ?_⟩
    have read := readMembers_more hkey hb hc hv hd' (hd.missing _ (by simp)) hnext
    rw [List.foldl_cons, ← htail, ← read]
    simp

/-! ### Documents -/

theorem lacks_nothing (hes : (es.map Entry.field).Nodup) : ({} : Draft).Lacks es :=
  ⟨hes, fun e _ => by cases e <;> rfl⟩

theorem readDocument_spelled (h : ObjectSpelled es w) (hes : (es.map Entry.field).Nodup) :
    readDocument w = .ok (es.foldl Draft.add {}) := by
  have open_mark (rest : List Char) : skipBlank ('\x7b' :: rest) = '\x7b' :: rest :=
    skipBlank_mark (by decide) rest
  cases h with
  | @empty a b c ha hb hc =>
    have finish : skipBlank c = [] := by simpa [skipBlank] using skipBlank_append hc []
    have object : readObject (b ++ '\x7d' :: c) = .ok ({}, c) := by
      rw [readObject, skipBlank_append hb, skipBlank_mark (by decide)]
      rfl
    simp [readDocument, skipBlank_append ha, open_mark, object, finish]
  | @members _ a w b ha hb hmembers =>
    have finish : skipBlank b = [] := by simpa [skipBlank] using skipBlank_append hb []
    obtain ⟨next, hnext, hread⟩ := readMembers_spelled hmembers (lacks_nothing hes) b
    have object : readObject (w ++ '\x7d' :: b) = .ok (es.foldl Draft.add {}, b) := by
      rw [readObject, hnext]
      exact hread
    simp [readDocument, skipBlank_append ha, open_mark, object, finish]

/-- From a document come the defaults, overridden by its entries, if they can be used. -/
theorem ofJson_spelled {source : String} (h : ObjectSpelled es source.toList)
    (hes : (es.map Entry.field).Nodup) :
    ofJson source = (overridden es).validate.map fun _ => overridden es := by
  have read : (es.foldl Draft.add {}).toSettings = overridden es := Draft.toSettings_foldl {} es
  simp only [ofJson, readDocument_spelled h hes, read]
  cases (overridden es).validate <;> rfl

/-- Settings come back from their own document, if they can be used. -/
theorem ofJson_toJson (s : Settings) : ofJson s.toJson = s.validate.map fun _ => s :=
  ofJson_spelled (objectSpelled_toJson s) (by simp [Entry.field])

/-- Settings come back from their own document if they can be used, and otherwise the document has
the problem that they have. The calls are checked first. And whatever object lists some of the
fields, in any order and in any spelling, holds the defaults overridden by what it lists, checked in
the same way. -/
theorem settings_survive_documents :
    (∀ s : Settings, ofJson s.toJson = (s.validate.map fun _ => s) ∧
      (s.maxCallDepth = 0 → ofJson s.toJson = .error .callDepth)) ∧
    ∀ (es : List Entry) (source : String), (es.map Entry.field).Nodup →
      ObjectSpelled es source.toList →
      ofJson source = (overridden es).validate.map fun _ => overridden es := by
  refine ⟨fun s => ⟨ofJson_toJson s, fun h => ?_⟩, fun es source hes h => ofJson_spelled h hes⟩
  simp [ofJson_toJson, validate, h, Except.map]

/-- The fields in the other order, blanks, an escape of each kind, and the largest number. -/
theorem settings_survive_documents_escaped :
    let source := "\t\x7b\"log_time_format\" : \"\\u0025H\\/\\uD83d\\uDE00\",\n" ++
      "\"max_call_depth\":18446744073709551615 \x7d"
    let es : List Entry := [.logTimeFormat "%H/😀", .maxCallDepth 18446744073709551615]
    (es.map Entry.field).Nodup ∧ ObjectSpelled es source.toList ∧
      ofJson source = .ok ⟨18446744073709551615, "%H/😀"⟩ := by
  intro source es
  have different : (es.map Entry.field).Nodup := by decide
  have blank {c : Char} (h : c ∈ [' ', '\n', '\t', '\r']) : Blank [c] := by
    simpa [Blank] using h
  have digit (v : Nat) (h : v < 16) : HexDigit (Nat.digitChar v) v := hexDigit_digitChar h
  have capital (v : Nat) (h : v < 16) : HexDigit (Nat.digitChar v).toUpper v := ⟨h, .inr rfl⟩
  have percent : CharSpelled '%' ['\\', 'u', '0', '0', '2', '5'] :=
    .code (.mk (digit 0 (by decide)) (digit 0 (by decide)) (digit 2 (by decide))
      (digit 5 (by decide)))
  have smile : CharSpelled '😀' ['\\', 'u', 'D', '8', '3', 'd', '\\', 'u', 'D', 'E', '0', '0'] :=
    @CharSpelled.pair '😀' 0x3d 0x200 _ _ (by decide) (by decide) (by decide)
      (.mk (capital 13 (by decide)) (digit 8 (by decide)) (digit 3 (by decide))
        (digit 13 (by decide)))
      (.mk (capital 13 (by decide)) (capital 14 (by decide)) (digit 0 (by decide))
        (digit 0 (by decide)))
  have format : TextSpelled ['%', 'H', '/', '😀'] _ :=
    .cons percent (.cons (.plain (by decide) (by decide) (by decide))
      (.cons (@CharSpelled.short '/' '/' (by decide)) (.cons smile .nil)))
  have first : MemberSpelled (.logTimeFormat "%H/😀") _ :=
    .mk blank_nil (blank (c := ' ') (by decide)) (blank (c := ' ') (by decide)) blank_nil
      (textSpelled_jsonEscape _) (.text format)
  have second : MemberSpelled (.maxCallDepth 18446744073709551615) _ :=
    .mk (blank (c := '\n') (by decide)) blank_nil blank_nil (blank (c := ' ') (by decide))
      (textSpelled_jsonEscape _) (.number _)
  have whole := ObjectSpelled.members (blank (c := '\t') (by decide)) blank_nil
    (.cons first (.last second))
  have spelled : ObjectSpelled es source.toList := by
    convert whole using 1
    decide +kernel
  refine ⟨different, spelled, ?_⟩
  rw [settings_survive_documents.2 es source different spelled]
  have valid : TimeFormat.isValid "%H/😀" = true := by decide +kernel
  simp [es, overridden, Entry.apply, validate, valid, Except.map]

end ScopeLang.Settings
