import RowFilter.Text.Digits
import RowFilter.Text.Quoted

/-!
# Lexemes

A line is made of words, quoted texts and marks, written one after another. A quoted text tells
where it ends and what it quotes. Words end where another lexeme starts, so that a line of
lexemes in which no two words touch tells its lexemes.
-/

namespace RowFilter.Text

/-! ## Quoted texts -/

def hexValue (c : Char) : Nat := if isDigit c then digitValue c else c.toNat - 'a'.toNat + 10

theorem hexValue_hexDigit : ∀ n < 16, hexValue (hexDigit n) = n := by decide

/-- The first character of a text that is quoted, and what follows it. -/
def unquoteChar? : List Char → Option (Char × List Char)
  | '\\' :: '"' :: s => some ('"', s)
  | '\\' :: '\\' :: s => some ('\\', s)
  | '\\' :: 'n' :: s => some ('\n', s)
  | '\\' :: 'r' :: s => some ('\r', s)
  | '\\' :: 't' :: s => some ('\t', s)
  | '\\' :: 'b' :: s => some (Char.ofNat 8, s)
  | '\\' :: 'f' :: s => some (Char.ofNat 12, s)
  | '\\' :: 'u' :: '0' :: '0' :: high :: low :: s =>
    some (Char.ofNat (16 * hexValue high + hexValue low), s)
  | '"' :: _ => none
  | c :: s => some (c, s)
  | [] => none

theorem unquoteChar?_quoteChar (c : Char) (s : List Char) :
    unquoteChar? (quoteChar c ++ s) = some (c, s) := by
  have hofNat {n : Nat} (h : c.toNat = n) : c = Char.ofNat n := by
    rw [← h, Char.ofNat_toNat]
  unfold quoteChar
  repeat' split
  · simp [unquoteChar?, *]
  · simp [unquoteChar?, *]
  · simp [unquoteChar?, *]
  · simp [unquoteChar?, *]
  · simp [unquoteChar?, *]
  · next h => simp [unquoteChar?, hofNat h]
  · next h => simp [unquoteChar?, hofNat h]
  · next hcontrol =>
    have hvalue : 16 * (c.toNat / 16) + c.toNat % 16 = c.toNat := by omega
    simp only [List.cons_append, List.nil_append, unquoteChar?,
      hexValue_hexDigit (c.toNat / 16) (by omega), hexValue_hexDigit (c.toNat % 16) (by omega),
      hvalue, Char.ofNat_toNat]
  · rw [List.singleton_append]
    unfold unquoteChar?
    split <;> simp_all

theorem quoteChars_append_injective {s s' rest rest' : List Char}
    (h : s.flatMap quoteChar ++ '"' :: rest = s'.flatMap quoteChar ++ '"' :: rest') :
    s = s' ∧ rest = rest' := by
  have hend (c : Char) {s rest rest' : List Char}
      (h : '"' :: rest = quoteChar c ++ s ++ '"' :: rest') : False := by
    have hread := unquoteChar?_quoteChar c (s ++ '"' :: rest')
    rw [← List.append_assoc, ← h] at hread
    cases hread
  induction s generalizing s' with
  | nil =>
    cases s' with
    | nil => exact ⟨rfl, (List.cons.inj h).2⟩
    | cons c' s' => exact (hend c' h).elim
  | cons c s ih =>
    cases s' with
    | nil => exact (hend c h.symm).elim
    | cons c' s' =>
      rw [List.flatMap_cons, List.flatMap_cons, List.append_assoc, List.append_assoc] at h
      have hread := congrArg unquoteChar? h
      rw [unquoteChar?_quoteChar, unquoteChar?_quoteChar] at hread
      obtain ⟨rfl, hrest⟩ := Prod.mk.inj (Option.some.inj hread)
      obtain ⟨rfl, rfl⟩ := ih hrest
      exact ⟨rfl, rfl⟩

/-- A quoted text tells what it quotes and where it ends. -/
theorem quote_append_injective {s s' : String} {rest rest' : List Char}
    (h : (quote s).toList ++ rest = (quote s').toList ++ rest') : s = s' ∧ rest = rest' := by
  rw [toList_quote, toList_quote, List.cons_append, List.cons_append, List.cons_append,
    List.cons_append, List.append_assoc, List.append_assoc] at h
  obtain ⟨hs, hrest⟩ := quoteChars_append_injective (List.cons.inj h).2
  exact ⟨String.toList_inj.mp hs, hrest⟩

/-! ## Lines of lexemes -/

theorem toList_intercalate_cons (mark text : String) (texts : List String) :
    (mark.intercalate (text :: texts)).toList =
      text.toList ++ texts.flatMap (fun s => mark.toList ++ s.toList) := by
  induction texts generalizing text with
  | nil => simp
  | cons text' texts ih =>
    rw [String.intercalate_cons_cons, String.toList_append, String.toList_append, ih]
    simp

inductive Lexeme where
  | word (s : String)
  | quoted (s : String)
  | blank
  | opening
  | closing
  | comma

/-- The characters of words. -/
def isWordChar (c : Char) : Bool := !" (),\"".toList.contains c

/-- A text that can be a word. -/
structure IsWord (s : String) : Prop where
  ne_nil : s.toList ≠ []
  wordChars : ∀ c ∈ s.toList, isWordChar c = true

instance (s : String) : Decidable (IsWord s) :=
  decidable_of_iff (s.toList ≠ [] ∧ s.toList.all isWordChar = true)
    ⟨fun h => ⟨h.1, List.all_eq_true.mp h.2⟩, fun h => ⟨h.1, List.all_eq_true.mpr h.2⟩⟩

/-- Characters of another kind than those that end words make words. -/
theorem isWord_of_chars {kind : Char → Bool} {s : String} (hne : s.toList ≠ [])
    (hchars : ∀ c ∈ s.toList, kind c = true) (hkind : " (),\"".toList.any kind = false) :
    IsWord s :=
  ⟨hne, fun c hc => by
    simp only [isWordChar, Bool.not_eq_true', List.contains_eq_mem, decide_eq_false_iff_not]
    exact fun hend => List.any_eq_false.mp hkind c hend (hchars c hc)⟩

namespace Lexeme

def spell : Lexeme → List Char
  | .word s => s.toList
  | .quoted s => (quote s).toList
  | .blank => [' ']
  | .opening => ['(']
  | .closing => [')']
  | .comma => [',']

/-- The line that lexemes make. -/
def line (ts : List Lexeme) : List Char := ts.flatMap spell

def isWord : Lexeme → Bool
  | .word _ => true
  | _ => false

def startsWord : List Lexeme → Bool
  | [] => false
  | t :: _ => t.isWord

/-- All words are words, and no two of them touch. -/
def Apart : List Lexeme → Prop
  | [] => True
  | .word s :: ts => IsWord s ∧ startsWord ts = false ∧ Apart ts
  | _ :: ts => Apart ts

@[simp] theorem line_nil : line [] = [] := rfl

@[simp] theorem line_cons (t : Lexeme) (ts : List Lexeme) : line (t :: ts) = t.spell ++ line ts :=
  List.flatMap_cons

@[simp] theorem line_append (ts us : List Lexeme) : line (ts ++ us) = line ts ++ line us :=
  List.flatMap_append

/-- The first character of a lexeme tells whether it is a word. -/
theorem isWordChar_head (t : Lexeme) (hword : ∀ s, t = .word s → IsWord s) :
    ∃ c s, t.spell = c :: s ∧ isWordChar c = t.isWord := by
  cases t with
  | word s =>
    obtain ⟨hne, hchars⟩ := hword s rfl
    obtain ⟨c, rest, hs⟩ := List.exists_cons_of_ne_nil hne
    exact ⟨c, rest, hs, hchars c (by simp [hs])⟩
  | quoted s => exact ⟨'"', _, toList_quote s, rfl⟩
  | _ => exact ⟨_, [], rfl, rfl⟩

theorem Apart.isWord {t : Lexeme} {ts : List Lexeme} (h : Apart (t :: ts)) (s : String)
    (ht : t = .word s) : IsWord s := by
  subst ht
  exact h.1

theorem Apart.tail {t : Lexeme} {ts : List Lexeme} (h : Apart (t :: ts)) : Apart ts := by
  cases t with
  | word => exact h.2.2
  | _ => exact h

/-- Where a word ends. -/
theorem takeWhile_line {s : String} {ts : List Lexeme} (h : Apart (.word s :: ts)) :
    (line (.word s :: ts)).takeWhile isWordChar = s.toList := by
  obtain ⟨hs, hnext, hts⟩ := h
  rw [line_cons, spell, List.takeWhile_append_of_pos hs.wordChars]
  cases ts with
  | nil => simp
  | cons t ts =>
    obtain ⟨c, rest, hspell, hc⟩ := isWordChar_head t hts.isWord
    rw [show t.isWord = false from hnext] at hc
    simp [hspell, hc]

/-- A line tells its lexemes. -/
theorem line_injective {ts us : List Lexeme} (hts : Apart ts) (hus : Apart us)
    (h : line ts = line us) : ts = us := by
  induction ts generalizing us with
  | nil =>
    cases us with
    | nil => rfl
    | cons u us =>
      obtain ⟨c, s, hspell, _⟩ := isWordChar_head u hus.isWord
      simp [hspell] at h
  | cons t ts ih =>
    cases us with
    | nil =>
      obtain ⟨c, s, hspell, _⟩ := isWordChar_head t hts.isWord
      simp [hspell] at h
    | cons u us =>
      have ih := ih hts.tail hus.tail
      obtain ⟨c, s, hspell, hc⟩ := isWordChar_head t hts.isWord
      obtain ⟨c', s', hspell', hc'⟩ := isWordChar_head u hus.isWord
      have hkind : t.isWord = u.isWord := by
        rw [line_cons, line_cons, hspell, hspell'] at h
        rw [← hc, ← hc', (List.cons.inj h).1]
      cases t with
      | word s =>
        cases u with
        | word s' =>
          have hs : s = s' := String.toList_inj.mp <| by
            rw [← takeWhile_line hts, h, takeWhile_line hus]
          subst hs
          rw [ih (List.append_cancel_left h)]
        | _ => cases hkind
      | quoted s =>
        cases u with
        | quoted s' =>
          obtain ⟨rfl, hrest⟩ := quote_append_injective h
          rw [ih hrest]
        | word => cases hkind
        | _ => simp [spell, toList_quote] at h
      | _ =>
        cases u with
        | word => cases hkind
        | quoted => simp [spell, toList_quote] at h
        | _ => simp_all [spell]

/-! ### Building lines -/

/-- Lexemes that stay apart from whatever follows them, if it does not start with a word. -/
def Closed (ts : List Lexeme) : Prop :=
  ∀ us, startsWord us = false → Apart us → Apart (ts ++ us)

theorem Closed.apart {ts : List Lexeme} (h : Closed ts) : Apart ts := by
  simpa using h [] rfl trivial

theorem startsWord_append {ts us : List Lexeme} (hts : startsWord ts = false)
    (hus : startsWord us = false) : startsWord (ts ++ us) = false := by
  cases ts with
  | nil => exact hus
  | cons t ts => exact hts

namespace Closed

variable {ts us : List Lexeme}

theorem nil : Closed [] := fun _ _ h => h

theorem append (hts : Closed ts) (hus : Closed us) (hstart : startsWord us = false) :
    Closed (ts ++ us) := fun rest hrest happart => by
  rw [List.append_assoc]
  exact hts _ (startsWord_append hstart hrest) (hus rest hrest happart)

/-- A lexeme before others that do not start with a word. -/
theorem cons {t : Lexeme} (ht : ∀ s, t = .word s → IsWord s) (hts : Closed ts)
    (hstart : startsWord ts = false) : Closed (t :: ts) := fun rest hrest happart => by
  have hrest' := hts rest hrest happart
  cases t with
  | word s => exact ⟨ht s rfl, startsWord_append hstart hrest, hrest'⟩
  | _ => exact hrest'

theorem word {s : String} (hs : IsWord s) (hts : Closed ts) (hstart : startsWord ts = false) :
    Closed (.word s :: ts) := .cons (fun _ h => Lexeme.word.inj h ▸ hs) hts hstart

/-- A mark may stand before a word. -/
theorem mark {t : Lexeme} (ht : t.isWord = false) (hts : Closed ts) : Closed (t :: ts) :=
  fun rest hrest happart => by
    cases t with
    | word => cases ht
    | _ => exact hts rest hrest happart

end Closed

end Lexeme
end RowFilter.Text
