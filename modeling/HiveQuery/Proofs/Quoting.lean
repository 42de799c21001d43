import HiveQuery.Sql.Quote
import Mathlib

/-!
# Quoted words read back

A string literal and a quoted name are read up to the quote that closes them. What was quoted comes back, and
reading stops where the spelling ends, whatever stands behind it.
-/

namespace HiveQuery.Sql
set_option autoImplicit false
open List

/-! ## Strings -/

/-- What a literal says behind its opening quote, and what follows its closing quote. The character that a
backslash took is read as it is. -/
def readLiteral (taken : Bool) : List Char → Option (List Char × List Char)
  | [] => none
  | c :: cs =>
    if taken then (readLiteral false cs).map (Prod.map (c :: ·) id)
    else if c = quote then some ([], cs)
    else if c = backslash then readLiteral true cs
    else (readLiteral false cs).map (Prod.map (c :: ·) id)

def readString (text : String) : Option (String × String) :=
  match text.toList with
  | [] => none
  | c :: cs => if c = quote then (readLiteral false cs).map (Prod.map String.ofList String.ofList) else none

def escaped (c : Char) : List Char :=
  if c = backslash ∨ c = quote then [backslash, c] else [c]

theorem replace_quote_replace_backslash (cs : List Char) :
    replaceChar quote [backslash, quote] (replaceChar backslash [backslash, backslash] cs) = cs.flatMap escaped := by
  have hne : backslash ≠ quote := by decide
  rw [replaceChar, replaceChar, flatMap_assoc]
  refine flatMap_congr fun c _ => ?_
  by_cases hslash : c = backslash
  · simp [escaped, hslash, hne]
  · by_cases hquote : c = quote
    · simp [escaped, hquote, hne.symm]
    · simp [escaped, hslash, hquote]

theorem toList_quoteString (s : String) :
    (quoteString s).toList = quote :: (s.toList.flatMap escaped ++ [quote]) := by
  rw [quoteString, String.toList_ofList, replace_quote_replace_backslash, cons_append]

theorem readLiteral_escaped (cs rest : List Char) :
    readLiteral false (cs.flatMap escaped ++ quote :: rest) = some (cs, rest) := by
  have hne : backslash ≠ quote := by decide
  induction cs with
  | nil => simp [readLiteral]
  | cons c cs ih =>
    rw [flatMap_cons, append_assoc, escaped]
    split
    · simp [readLiteral, hne, ih]
    · next h =>
      obtain ⟨hslash, hquote⟩ := not_or.1 h
      simp [readLiteral, hslash, hquote, ih]

/-- A string literal closes where its spelling ends, and says the string. -/
theorem readString_quoteString (s rest : String) : readString (quoteString s ++ rest) = some (s, rest) := by
  rw [readString, String.toList_append, toList_quoteString, cons_append, append_assoc, singleton_append]
  simp [readLiteral_escaped]

/-! ## Names -/

/-- A quoted name behind its opening back-quote, and what follows it. Two back-quotes are one in the name. -/
def readQuoted (half : Bool) : List Char → Option (List Char × List Char)
  | [] => if half then some ([], []) else none
  | c :: cs =>
    if half then
      if c = backquote then (readQuoted false cs).map (Prod.map (c :: ·) id) else some ([], c :: cs)
    else if c = backquote then readQuoted true cs
    else (readQuoted false cs).map (Prod.map (c :: ·) id)

def readName (text : String) : Option (String × String) :=
  match text.toList with
  | [] => none
  | c :: cs => if c = backquote then (readQuoted false cs).map (Prod.map String.ofList String.ofList) else none

/-- A word of ASCII letters, digits and underscores, without a digit in front, that is no keyword in any letter
case. -/
structure PlainName (name : String) : Prop where
  nonempty : name ≠ ""
  chars : ∀ c ∈ name.toList, 'a' ≤ c ∧ c ≤ 'z' ∨ 'A' ≤ c ∧ c ≤ 'Z' ∨ '0' ≤ c ∧ c ≤ '9' ∨ c = '_'
  start : ∀ c ∈ name.toList.head?, ¬('0' ≤ c ∧ c ≤ '9')
  free : ∀ word ∈ keywords, name.toLower ≠ word.toLower

theorem isWordChar_iff {c : Char} :
    isWordChar c = true ↔ 'a' ≤ c ∧ c ≤ 'z' ∨ 'A' ≤ c ∧ c ≤ 'Z' ∨ '0' ≤ c ∧ c ≤ '9' ∨ c = '_' := by
  simp only [isWordChar, Char.isAlphanum, Char.isAlpha, Char.isUpper, Char.isLower, Char.isDigit, Bool.or_eq_true,
    Bool.and_eq_true, decide_eq_true_eq, beq_iff_eq, ge_iff_le, Char.le_def]
  tauto

theorem isWordStart_iff {c : Char} : isWordStart c = true ↔ isWordChar c = true ∧ ¬('0' ≤ c ∧ c ≤ '9') := by
  simp only [isWordStart, isWordChar, Char.isAlphanum, Char.isAlpha, Char.isUpper, Char.isLower, Char.isDigit,
    Bool.or_eq_true, Bool.and_eq_true, decide_eq_true_eq, beq_iff_eq, ge_iff_le, Char.le_def, UInt32.le_iff_toNat_le,
    Char.ext_iff, ← UInt32.toNat_inj, Char.reduceVal, UInt32.reduceToNat]
  omega

theorem isKeyword_iff {name : String} :
    isKeyword name.toList = true ↔ ∃ word ∈ keywords, name.toLower = word.toLower := by
  have hlower : ∀ word ∈ keywords, word.toList.map Char.toLower = word.toList := by simp [keywords]
  simp only [isKeyword, contains_iff_mem, ← String.toList_inj, String.toLower, String.toList_map]
  constructor
  · intro h
    exact ⟨_, h, by rw [hlower _ h, String.toList_ofList]⟩
  · rintro ⟨word, hword, h⟩
    rwa [h, hlower word hword, String.ofList_toList]

theorem isPlainWord_iff {cs : List Char} :
    isPlainWord cs = true ↔
      cs ≠ [] ∧ (∀ c ∈ cs, isWordChar c = true) ∧ ∀ c ∈ cs.head?, ¬('0' ≤ c ∧ c ≤ '9') := by
  cases cs with
  | nil => simp [isPlainWord]
  | cons c cs =>
    simp only [isPlainWord, Bool.and_eq_true, isWordStart_iff, all_eq_true, forall_mem_cons, head?_cons,
      Option.mem_some_iff, forall_eq', ne_eq, reduceCtorEq, not_false_eq_true, true_and]
    exact and_right_comm

theorem plainName_iff {name : String} :
    PlainName name ↔ (isPlainWord name.toList && !isKeyword name.toList) = true := by
  rw [Bool.and_eq_true, Bool.not_eq_true', ← Bool.not_eq_true, isKeyword_iff, isPlainWord_iff]
  simp only [isWordChar_iff, ne_eq, String.toList_eq_nil_iff]
  exact ⟨fun h => ⟨⟨h.nonempty, h.chars, h.start⟩, fun ⟨word, hword, heq⟩ => h.free word hword heq⟩,
    fun ⟨⟨nonempty, chars, start⟩, free⟩ => ⟨nonempty, chars, start, fun word hword heq => free ⟨word, hword, heq⟩⟩⟩

variable {name other : String}

theorem quoteIdent_of_plain (h : PlainName name) : quoteIdent name = name :=
  if_pos (plainName_iff.1 h)

theorem toList_quoteIdent (h : ¬PlainName name) :
    (quoteIdent name).toList =
      backquote :: (replaceChar backquote [backquote, backquote] name.toList ++ [backquote]) := by
  rw [quoteIdent, if_neg (plainName_iff.not.1 h), String.toList_ofList, cons_append]

theorem readQuoted_doubled (cs : List Char) {rest : List Char} (hrest : rest.head? ≠ some backquote) :
    readQuoted false (replaceChar backquote [backquote, backquote] cs ++ backquote :: rest) = some (cs, rest) := by
  induction cs with
  | nil => cases rest <;> simp_all [replaceChar, readQuoted]
  | cons c cs ih =>
    simp only [replaceChar, flatMap_cons, append_assoc] at ih ⊢
    split
    · next h => simp [readQuoted, h, ih]
    · next h => simp [readQuoted, h, ih]

theorem readName_quoteIdent (h : ¬PlainName name) {rest : String} (hrest : rest.toList.head? ≠ some backquote) :
    readName (quoteIdent name ++ rest) = some (name, rest) := by
  rw [readName, String.toList_append, toList_quoteIdent h, cons_append, append_assoc, singleton_append]
  simp [readQuoted_doubled _ hrest]

theorem PlainName.ne_quoteIdent (h : PlainName name) (hother : ¬PlainName other) : name ≠ quoteIdent other := by
  rintro rfl
  have hmem : backquote ∈ (quoteIdent other).toList := by simp [toList_quoteIdent hother]
  exact absurd (h.chars backquote hmem) (by decide)

/-- Every name is a plain word that stands for itself, or a quoted name that ends where its spelling ends and says
the name; so no two names are spelled alike. -/
theorem quoteIdent_lossless :
    (∀ name, PlainName name ∧ quoteIdent name = name ∨
      ¬PlainName name ∧ ∀ rest : String, rest.toList.head? ≠ some backquote →
        readName (quoteIdent name ++ rest) = some (name, rest)) ∧
      Function.Injective quoteIdent := by
  refine ⟨fun name => ?_, fun name other h => ?_⟩
  · by_cases hname : PlainName name
    · exact .inl ⟨hname, quoteIdent_of_plain hname⟩
    · exact .inr ⟨hname, fun rest => readName_quoteIdent hname⟩
  · by_cases hname : PlainName name <;> by_cases hother : PlainName other
    · rwa [quoteIdent_of_plain hname, quoteIdent_of_plain hother] at h
    · rw [quoteIdent_of_plain hname] at h
      exact absurd h (hname.ne_quoteIdent hother)
    · rw [quoteIdent_of_plain hother] at h
      exact absurd h.symm (hother.ne_quoteIdent hname)
    · have hread : readName (quoteIdent name ++ "") = _ := readName_quoteIdent hname (by decide)
      rw [h, readName_quoteIdent hother (by decide)] at hread
      exact (congrArg Prod.fst (Option.some.inj hread)).symm

end HiveQuery.Sql
