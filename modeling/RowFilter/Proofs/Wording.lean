import RowFilter.Proofs.Decimals
import RowFilter.Proofs.Instants
import RowFilter.Proofs.Lexemes

/-!
# Lexemes of values and comparisons

A value is written as one lexeme, which tells the value up to the sign of zero and whatever else
the record of a time of day holds. What a comparison says about its field is written as a few
lexemes, which tell the comparison and where it ends.
-/

namespace RowFilter

open Text (Form IsWord Lexeme isWordChar isWord_of_chars)
open Text.Lexeme (Closed line startsWord)

/-! ## Values -/

namespace Value

/-- The values that an operand can become. -/
inductive IsCoerced : Value → Prop
  | null : IsCoerced .null
  | bool {b : Bool} : IsCoerced (.bool b)
  | number {n : Number} : IsCoerced (.number n)
  | text {s : String} : IsCoerced (.text s)
  | date {ms : Int} : IsCoerced (.date (some ms))
  | time {v : Value} : v.isTimeOfDay = true → IsCoerced v

/-- Equal up to the sign of zero and the further entries of times of day. -/
inductive Resembles : Value → Value → Prop
  | null : Resembles .null .null
  | bool {b : Bool} : Resembles (.bool b) (.bool b)
  | number {n m : Number} : n.Resembles m → Resembles (.number n) (.number m)
  | text {s : String} : Resembles (.text s) (.text s)
  | date {ms : Int} : Resembles (.date (some ms)) (.date (some ms))
  | time {v w : Value} {hour minute second : Nat} : v.timeOfDay? = some (hour, minute, second) →
      w.timeOfDay? = some (hour, minute, second) → Resembles v w

/-- The word that a value is written as, or the text that it quotes. -/
def lexeme : Value → Lexeme
  | .text s => .quoted s
  | v =>
    match v.render with
    | .ok s => .word s
    | .error _ => .blank

/-- The fields of a time of day are in their ranges. -/
theorem ranges_of_timeOfDay? {v : Value} {hour minute second : Nat}
    (h : v.timeOfDay? = some (hour, minute, second)) :
    RowFilter.isTimeOfDay hour minute second = true := by
  unfold timeOfDay? at h
  obtain ⟨hour', _, h⟩ := Option.bind_eq_some_iff.mp h
  obtain ⟨minute', _, h⟩ := Option.bind_eq_some_iff.mp h
  obtain ⟨second', _, h⟩ := Option.bind_eq_some_iff.mp h
  split at h
  · next hranges =>
    cases h
    exact hranges
  · cases h

theorem fits_time {v : Value} {hour minute second : Nat}
    (h : v.timeOfDay? = some (hour, minute, second)) : Form.time.Fits [hour, minute, second] := by
  obtain ⟨hhour, hminute, hsecond⟩ := Instant.isTimeOfDay_iff.mp (ranges_of_timeOfDay? h)
  exact Form.fits_time_iff.mpr ⟨_, _, _, rfl, by omega, by omega, by omega⟩

/-! ### Words -/

/-- The kinds of words that values are written as. -/
inductive Wording : Value → String → Prop
  | null : Wording .null "NULL"
  | bool {b : Bool} : Wording (.bool b) (if b then "true" else "false")
  | number {n : Number} : Wording (.number n) n.text
  | date {ms : Int} : Wording (.date (some ms)) (Instant.text ms)
  | time {kind : RecordKind} {entries : List (String × Value)} {hour minute second : Nat} :
      (Value.record kind entries).timeOfDay? = some (hour, minute, second) →
      Wording (.record kind entries) (String.ofList (Form.time.write [hour, minute, second]))

theorem Wording.render_eq {v : Value} {s : String} (h : v.Wording s) : v.render = .ok s := by
  cases h with
  | time htime => exact render_of_timeOfDay? htime
  | _ => rfl

theorem Wording.lexeme_eq {v : Value} {s : String} (h : v.Wording s) : v.lexeme = .word s := by
  have hrender := h.render_eq
  cases h <;> simp only [lexeme, hrender]

theorem IsCoerced.cases {v : Value} (h : v.IsCoerced) :
    (∃ s, v = .text s) ∨ ∃ s, v.Wording s := by
  cases h with
  | null => exact .inr ⟨_, .null⟩
  | bool => exact .inr ⟨_, .bool⟩
  | number => exact .inr ⟨_, .number⟩
  | text => exact .inl ⟨_, rfl⟩
  | date => exact .inr ⟨_, .date⟩
  | time htime =>
    obtain ⟨kind, entries, rfl⟩ := exists_record_of_isTimeOfDay htime
    obtain ⟨⟨hour, minute, second⟩, htime⟩ := Option.isSome_iff_exists.mp htime
    exact .inr ⟨_, .time htime⟩

/-- A coerced value has a text, which is its lexeme. -/
theorem IsCoerced.render_eq {v : Value} (h : v.IsCoerced) :
    v.render = .ok (String.ofList v.lexeme.spell) := by
  obtain ⟨s, rfl⟩ | ⟨s, hs⟩ := h.cases
  · simp [render, lexeme, Lexeme.spell]
  · rw [hs.render_eq, hs.lexeme_eq, Lexeme.spell, String.ofList_toList]

theorem isWord_numberText (n : Number) : IsWord n.text :=
  isWord_of_chars n.text_ne_empty (fun _ => Number.isNumberChar_of_mem_text) (by decide)

/-- The characters of a time of day. -/
def isTimeChar (c : Char) : Bool := Text.isDigit c || c == ':'

theorem isTimeChar_of_mem {ns : List Nat} {c : Char} (h : c ∈ Form.time.write ns) :
    isTimeChar c = true := by
  obtain hdigit | hmark := Form.mem_write h
  · simp [isTimeChar, hdigit]
  · have hmark : c = ':' := by simpa [Form.time] using hmark
    simp [isTimeChar, hmark]

theorem isWord_timeText (hour minute second : Nat) :
    IsWord (String.ofList (Form.time.write [hour, minute, second])) := by
  refine isWord_of_chars ?_ (fun c hc => (?_ : isTimeChar c = true)) (by decide)
  · simp [Form.time, Form.write]
  · exact isTimeChar_of_mem (by simpa using hc)

/-- The characters of an instant. -/
def isInstantChar (c : Char) : Bool := Text.isDigit c || "+-T:.Z".toList.contains c

theorem isInstantChar_of_isDigit {c : Char} (h : Text.isDigit c = true) :
    isInstantChar c = true := by
  simp [isInstantChar, h]

theorem isInstantChar_of_mem_yearText {year : Int} {c : Char}
    (h : c ∈ (Instant.yearText year).toList) : isInstantChar c = true := by
  by_cases hnear : 0 ≤ year ∧ year ≤ 9999
  · rw [Instant.toList_yearText_near hnear] at h
    exact isInstantChar_of_isDigit (Text.isDigit_of_mem_padded h)
  · rw [Instant.toList_yearText_far hnear] at h
    obtain rfl | h := List.mem_cons.mp h
    · split <;> rfl
    · exact isInstantChar_of_isDigit (Text.isDigit_of_mem_padded h)

theorem isInstantChar_of_mem_text {ms : Int} {c : Char} (h : c ∈ (Instant.text ms).toList) :
    isInstantChar c = true := by
  rw [Instant.toList_text] at h
  obtain h | h := List.mem_append.mp h
  · exact isInstantChar_of_mem_yearText h
  · obtain hdigit | hmark := Form.mem_write h
    · exact isInstantChar_of_isDigit hdigit
    · simp only [Instant.afterYear, List.mem_cons, Text.Piece.mark.injEq, reduceCtorEq, false_or,
        List.not_mem_nil, or_false] at hmark
      obtain rfl | rfl | rfl | rfl | rfl | rfl | rfl := hmark <;> rfl

theorem mem_instantText (ms : Int) : 'Z' ∈ (Instant.text ms).toList := by
  simp [Instant.toList_text, Instant.afterYear, Instant.fieldsAfterYear, Form.write]

theorem isWord_instantText (ms : Int) : IsWord (Instant.text ms) :=
  isWord_of_chars (List.ne_nil_of_mem (mem_instantText ms)) (fun _ => isInstantChar_of_mem_text)
    (by decide)

theorem Wording.isWord {v : Value} {s : String} (h : v.Wording s) : IsWord s := by
  cases h with
  | null => decide
  | @bool b => cases b <;> decide
  | number => exact isWord_numberText _
  | date => exact isWord_instantText _
  | time => exact isWord_timeText _ _ _

/-! ### Telling words apart -/

inductive WordKind where
  | null
  | bool
  | number
  | date
  | time
deriving DecidableEq

/-- The kind of value that a word is written for. Only instants end in `Z`, and of the others only
times of day have a colon. -/
def wordKind (s : String) : WordKind :=
  if 'Z' ∈ s.toList then .date
  else if ':' ∈ s.toList then .time
  else if s = "NULL" then .null
  else if s = "true" ∨ s = "false" then .bool
  else .number

def kindOfWord : Value → WordKind
  | .null => .null
  | .bool _ => .bool
  | .number _ => .number
  | .date _ => .date
  | _ => .time

theorem wordKind_numberText (n : Number) : wordKind n.text = .number := by
  have hno {c : Char} (hc : Number.isNumberChar c = false) : c ∉ n.text.toList := fun h => by
    simp [Number.isNumberChar_of_mem_text h] at hc
  have hne {s : String} {c : Char} (hs : c ∈ s.toList) (hc : Number.isNumberChar c = false) :
      n.text ≠ s := fun h => hno hc (h ▸ hs)
  rw [wordKind, if_neg (hno (by decide)), if_neg (hno (by decide)),
    if_neg (hne (c := 'U') (by decide) (by decide)), if_neg]
  exact fun h => h.elim (hne (c := 'r') (by decide) (by decide))
    (hne (c := 'l') (by decide) (by decide))

theorem Wording.wordKind_eq {v : Value} {s : String} (h : v.Wording s) :
    wordKind s = v.kindOfWord := by
  cases h with
  | null => decide
  | @bool b => cases b <;> decide
  | number => exact wordKind_numberText _
  | date => exact if_pos (mem_instantText _)
  | time htime =>
    rw [wordKind, if_neg, if_pos]
    · rfl
    · simp [Form.time, Form.write]
    · intro hmem
      cases isTimeChar_of_mem (c := 'Z') (by simpa using hmem)

/-- A word tells the value that it is written for. -/
theorem Wording.resembles {v w : Value} {s s' : String} (h : v.Wording s) (h' : w.Wording s')
    (heq : s = s') : v.Resembles w := by
  have hkind : v.kindOfWord = w.kindOfWord := by rw [← h.wordKind_eq, heq, h'.wordKind_eq]
  cases h with
  | null =>
    cases h' with
    | null => exact .null
    | _ => cases hkind
  | @bool b =>
    cases h' with
    | @bool b' =>
      have hb : b = b' := by
        cases b <;> cases b' <;> simp_all
      exact hb ▸ .bool
    | _ => cases hkind
  | number =>
    cases h' with
    | number => exact .number (Number.resembles_of_text_eq heq)
    | _ => cases hkind
  | date =>
    cases h' with
    | date => exact Instant.text_injective heq ▸ .date
    | _ => cases hkind
  | time htime =>
    cases h' with
    | time htime' =>
      have hfields := Form.write_injective Form.wide_time (fits_time htime) (fits_time htime')
        (String.ofList_inj.mp heq)
      simp only [List.cons.injEq, and_true] at hfields
      obtain ⟨rfl, rfl, rfl⟩ := hfields
      exact .time htime htime'
    | _ => cases hkind

theorem IsCoerced.resembles_of_lexeme_eq {v w : Value} (hv : v.IsCoerced) (hw : w.IsCoerced)
    (h : v.lexeme = w.lexeme) : v.Resembles w := by
  obtain ⟨s, rfl⟩ | ⟨s, hs⟩ := hv.cases
  · obtain ⟨s', rfl⟩ | ⟨s', hs'⟩ := hw.cases
    · cases h
      exact .text
    · rw [hs'.lexeme_eq] at h
      cases h
  · obtain ⟨s', rfl⟩ | ⟨s', hs'⟩ := hw.cases
    · rw [hs.lexeme_eq] at h
      cases h
    · rw [hs.lexeme_eq, hs'.lexeme_eq] at h
      exact hs.resembles hs' (Lexeme.word.inj h)

theorem Resembles.lexeme_eq {v w : Value} (h : v.Resembles w) : v.lexeme = w.lexeme := by
  cases h with
  | number h => exact congrArg Lexeme.word (Number.text_eq_of_resembles h)
  | time hv hw =>
    obtain ⟨kind, entries, rfl⟩ := exists_record_of_isTimeOfDay (Option.isSome_of_eq_some hv)
    obtain ⟨kind', entries', rfl⟩ := exists_record_of_isTimeOfDay (Option.isSome_of_eq_some hw)
    rw [(Wording.time hv).lexeme_eq, (Wording.time hw).lexeme_eq]
  | _ => rfl

theorem IsCoerced.isWord {v : Value} (h : v.IsCoerced) (s : String) (hs : v.lexeme = .word s) :
    IsWord s := by
  obtain ⟨t, rfl⟩ | ⟨t, ht⟩ := h.cases
  · cases hs
  · rw [ht.lexeme_eq] at hs
    exact Lexeme.word.inj hs ▸ ht.isWord

/-! ### Lists -/

/-- The values of a list after the first, and its end. -/
def lexemesAfter : List Value → List Lexeme
  | [] => [.closing]
  | v :: vs => .comma :: .blank :: v.lexeme :: lexemesAfter vs

/-- A list from its opening on. -/
def lexemesOf : List Value → List Lexeme
  | [] => [.closing]
  | v :: vs => v.lexeme :: lexemesAfter vs

theorem closed_lexemesAfter {vs : List Value} (h : ∀ v ∈ vs, v.IsCoerced) :
    Closed (lexemesAfter vs) ∧ startsWord (lexemesAfter vs) = false := by
  induction vs with
  | nil => exact ⟨.mark rfl .nil, rfl⟩
  | cons v vs ih =>
    rw [List.forall_mem_cons] at h
    obtain ⟨hclosed, hstart⟩ := ih h.2
    exact ⟨.mark rfl (.mark rfl (.cons h.1.isWord hclosed hstart)), rfl⟩

theorem closed_lexemesOf {vs : List Value} (h : ∀ v ∈ vs, v.IsCoerced) :
    Closed (lexemesOf vs) := by
  cases vs with
  | nil => exact .mark rfl .nil
  | cons v vs =>
    rw [List.forall_mem_cons] at h
    obtain ⟨hclosed, hstart⟩ := closed_lexemesAfter h.2
    exact .cons h.1.isWord hclosed hstart

/-- The texts of values after the first. -/
theorem exists_renders_lexemesAfter {vs : List Value} (h : ∀ v ∈ vs, v.IsCoerced) :
    ∃ texts, vs.mapM render = .ok texts ∧
      line (lexemesAfter vs) = texts.flatMap (fun s => ", ".toList ++ s.toList) ++ [')'] := by
  induction vs with
  | nil => exact ⟨[], rfl, rfl⟩
  | cons v vs ih =>
    rw [List.forall_mem_cons] at h
    obtain ⟨texts, htexts, hline⟩ := ih h.2
    refine ⟨_ :: texts, by rw [List.mapM_cons, h.1.render_eq, htexts]; rfl, ?_⟩
    simp [lexemesAfter, Lexeme.spell, hline]

theorem resembles_of_lexemesAfter_eq {vs ws : List Value} {ts us : List Lexeme}
    (hvs : ∀ v ∈ vs, v.IsCoerced) (hws : ∀ w ∈ ws, w.IsCoerced)
    (h : lexemesAfter vs ++ ts = lexemesAfter ws ++ us) :
    List.Forall₂ Resembles vs ws ∧ ts = us := by
  induction vs generalizing ws with
  | nil =>
    cases ws with
    | nil => exact ⟨.nil, (List.cons.inj h).2⟩
    | cons w ws => cases h
  | cons v vs ih =>
    cases ws with
    | nil => cases h
    | cons w ws =>
      rw [List.forall_mem_cons] at hvs hws
      simp only [lexemesAfter, List.cons_append, List.cons.injEq, true_and] at h
      obtain ⟨hsimilar, hrest⟩ := ih hvs.2 hws.2 h.2
      exact ⟨.cons (hvs.1.resembles_of_lexeme_eq hws.1 h.1) hsimilar, hrest⟩

/-- A value does not end a list. -/
theorem IsCoerced.lexeme_ne_closing {v : Value} (h : v.IsCoerced) : v.lexeme ≠ .closing := by
  obtain ⟨s, rfl⟩ | ⟨s, hs⟩ := h.cases
  · exact Lexeme.noConfusion
  · rw [hs.lexeme_eq]
    exact Lexeme.noConfusion

/-- A list tells its values and where it ends. -/
theorem resembles_of_lexemesOf_eq {vs ws : List Value} {ts us : List Lexeme}
    (hvs : ∀ v ∈ vs, v.IsCoerced) (hws : ∀ w ∈ ws, w.IsCoerced)
    (h : lexemesOf vs ++ ts = lexemesOf ws ++ us) : List.Forall₂ Resembles vs ws ∧ ts = us := by
  cases vs with
  | nil =>
    cases ws with
    | nil => exact ⟨.nil, (List.cons.inj h).2⟩
    | cons w ws => exact absurd (List.cons.inj h).1.symm (hws w (by simp)).lexeme_ne_closing
  | cons v vs =>
    cases ws with
    | nil => exact absurd (List.cons.inj h).1 (hvs v (by simp)).lexeme_ne_closing
    | cons w ws =>
      rw [List.forall_mem_cons] at hvs hws
      obtain ⟨hv, htail⟩ := List.cons.inj h
      obtain ⟨hsimilar, hrest⟩ := resembles_of_lexemesAfter_eq hvs.2 hws.2 htail
      exact ⟨.cons (hvs.1.resembles_of_lexeme_eq hws.1 hv) hsimilar, hrest⟩

end Value

/-! ## Comparisons -/

namespace Comparison

/-- The operands are what the comparison takes. -/
inductive Sound : Comparison → Prop
  | compare {op : CompareOp} {v : Value} : v.IsCoerced → Sound (.compare op v)
  | like {pattern : String} : Sound (.like pattern)
  | among {vs : List Value} : (∀ v ∈ vs, v.IsCoerced) → Sound (.among vs)
  | modulo {v : Value} {divisor remainder : Number} : v.modulus? = some (divisor, remainder) →
      Sound (.modulo v)
  | isNull : Sound .isNull
  | notNull : Sound .notNull

/-- The same comparison with operands that resemble each other. -/
inductive Resembles : Comparison → Comparison → Prop
  | compare {op : CompareOp} {v w : Value} : v.Resembles w →
      Resembles (.compare op v) (.compare op w)
  | like {pattern : String} : Resembles (.like pattern) (.like pattern)
  | among {vs ws : List Value} : List.Forall₂ Value.Resembles vs ws →
      Resembles (.among vs) (.among ws)
  | modulo {v w : Value} {divisor divisor' remainder remainder' : Number} :
      v.modulus? = some (divisor, remainder) → w.modulus? = some (divisor', remainder') →
      divisor.Resembles divisor' → remainder.Resembles remainder' →
      Resembles (.modulo v) (.modulo w)
  | isNull : Resembles .isNull .isNull
  | notNull : Resembles .notNull .notNull

/-- The lexemes of what a comparison says about its field. -/
def lexemes : Comparison → List Lexeme
  | .compare op v => [.word op.symbol, .blank, v.lexeme]
  | .like pattern => [.word "LIKE", .blank, .quoted pattern]
  | .among vs => .word "IN" :: .blank :: .opening :: Value.lexemesOf vs
  | .modulo v =>
    match v.modulus? with
    | some (divisor, remainder) =>
      [.word "%", .blank, .word divisor.text, .blank, .word "=", .blank, .word remainder.text]
    | none => []
  | .isNull => [.word "IS", .blank, .word "NULL"]
  | .notNull => [.word "IS", .blank, .word "NOT", .blank, .word "NULL"]

/-- A sound comparison has a text, which is the line of its lexemes. -/
theorem Sound.render_eq {c : Comparison} (h : c.Sound) :
    ∃ s, c.render = .ok s ∧ s.toList = line c.lexemes := by
  cases h with
  | compare hv =>
    refine ⟨_, by rw [render, hv.render_eq]; rfl, ?_⟩
    simp [lexemes, Lexeme.spell]
  | like => exact ⟨_, rfl, by simp [lexemes, Lexeme.spell]⟩
  | @among vs hvs =>
    cases vs with
    | nil => exact ⟨_, rfl, by simp [lexemes, Lexeme.spell, Value.lexemesOf]⟩
    | cons v vs =>
      rw [List.forall_mem_cons] at hvs
      obtain ⟨texts, htexts, hline⟩ := Value.exists_renders_lexemesAfter hvs.2
      refine ⟨_, by rw [render, List.mapM_cons, hvs.1.render_eq, htexts]; rfl, ?_⟩
      simp only [lexemes, Value.lexemesOf, Text.Lexeme.line_cons, hline, String.toList_append,
        Text.toList_intercalate_cons, Lexeme.spell]
      simp
  | modulo hv =>
    refine ⟨_, by rw [render, hv]; rfl, ?_⟩
    simp [lexemes, hv, Lexeme.spell]
  | isNull => exact ⟨_, rfl, by simp [lexemes, Lexeme.spell]⟩
  | notNull => exact ⟨_, rfl, by simp [lexemes, Lexeme.spell]⟩

theorem isWord_symbol (op : CompareOp) : IsWord op.symbol := by
  cases op <;> decide

theorem Sound.closed {c : Comparison} (h : c.Sound) : Closed c.lexemes := by
  have hword {s : String} (hs : IsWord s) : Closed [.word s] := .word hs .nil rfl
  have hkeyword {s : String} (hs : IsWord s) {ts : List Lexeme} (hts : Closed ts) :
      Closed (.word s :: .blank :: ts) := .word hs (.mark rfl hts) rfl
  cases h with
  | compare hv => exact hkeyword (isWord_symbol _) (.cons hv.isWord .nil rfl)
  | like => exact hkeyword (by decide) (.mark rfl .nil)
  | among hvs => exact hkeyword (by decide) (.mark rfl (Value.closed_lexemesOf hvs))
  | modulo hv =>
    simp only [lexemes, hv]
    exact hkeyword (by decide) (hkeyword (Value.isWord_numberText _)
      (hkeyword (by decide) (hword (Value.isWord_numberText _))))
  | isNull => exact hkeyword (by decide) (hword (by decide))
  | notNull =>
    exact hkeyword (by decide) (hkeyword (by decide)
      (hword (by decide)))

/-- The word that follows the path in a comparison. -/
def opWord : Comparison → String
  | .compare op _ => op.symbol
  | .like _ => "LIKE"
  | .among _ => "IN"
  | .modulo _ => "%"
  | .isNull | .notNull => "IS"

theorem symbol_injective {op op' : CompareOp} (h : op.symbol = op'.symbol) : op = op' := by
  cases op <;> cases op' <;> first | rfl | simp [CompareOp.symbol] at h

theorem Sound.lexemes_eq {c : Comparison} (h : c.Sound) :
    ∃ ts, c.lexemes = .word c.opWord :: .blank :: ts := by
  cases h with
  | modulo hv =>
    simp only [lexemes, hv]
    exact ⟨_, rfl⟩
  | _ => exact ⟨_, rfl⟩

/-- The words of comparisons with one value are used by no others. -/
theorem symbol_ne (op : CompareOp) {word : String} (h : word ∈ ["LIKE", "IN", "%", "IS"]) :
    op.symbol ≠ word := by
  rintro rfl
  cases op <;> simp [CompareOp.symbol] at h

/-- A comparison tells itself and where it ends. -/
theorem Sound.resembles_of_lexemes_eq {c c' : Comparison} {ts us : List Lexeme} (h : c.Sound)
    (h' : c'.Sound) (heq : c.lexemes ++ ts = c'.lexemes ++ us) : c.Resembles c' ∧ ts = us := by
  have hop : c.opWord = c'.opWord := by
    obtain ⟨_, hc⟩ := h.lexemes_eq
    obtain ⟨_, hc'⟩ := h'.lexemes_eq
    rw [hc, hc'] at heq
    exact Lexeme.word.inj (List.cons.inj heq).1
  cases h with
  | @compare op v hv =>
    cases h' with
    | compare hv' =>
      simp only [lexemes, List.cons_append, List.nil_append, List.cons.injEq, true_and] at heq
      rw [symbol_injective hop]
      exact ⟨.compare (hv.resembles_of_lexeme_eq hv' heq.2.1), heq.2.2⟩
    | _ => exact absurd hop (symbol_ne op (by simp [opWord]))
  | like =>
    cases h' with
    | compare => exact absurd hop.symm (symbol_ne _ (by simp [opWord]))
    | like =>
      simp only [lexemes, List.cons_append, List.nil_append, List.cons.injEq, true_and,
        Lexeme.quoted.injEq] at heq
      exact ⟨heq.1 ▸ .like, heq.2⟩
    | _ => simp [opWord] at hop
  | among hvs =>
    cases h' with
    | compare => exact absurd hop.symm (symbol_ne _ (by simp [opWord]))
    | among hvs' =>
      simp only [lexemes, List.cons_append, List.cons.injEq, true_and] at heq
      obtain ⟨hsimilar, hrest⟩ := Value.resembles_of_lexemesOf_eq hvs hvs' heq
      exact ⟨.among hsimilar, hrest⟩
    | _ => simp [opWord] at hop
  | modulo hv =>
    cases h' with
    | compare => exact absurd hop.symm (symbol_ne _ (by simp [opWord]))
    | modulo hv' =>
      simp only [lexemes, hv, hv', List.cons_append, List.nil_append, List.cons.injEq, true_and,
        Lexeme.word.injEq] at heq
      obtain ⟨hdivisor, hremainder, hrest⟩ := heq
      exact ⟨.modulo hv hv' (Number.resembles_of_text_eq hdivisor)
        (Number.resembles_of_text_eq hremainder), hrest⟩
    | _ => simp [opWord] at hop
  | isNull =>
    cases h' with
    | compare => exact absurd hop.symm (symbol_ne _ (by simp [opWord]))
    | isNull => exact ⟨.isNull, List.append_cancel_left heq⟩
    | notNull => simp [lexemes] at heq
    | _ => simp [opWord] at hop
  | notNull =>
    cases h' with
    | compare => exact absurd hop.symm (symbol_ne _ (by simp [opWord]))
    | isNull => simp [lexemes] at heq
    | notNull => exact ⟨.notNull, List.append_cancel_left heq⟩
    | _ => simp [opWord] at hop

/-- Comparisons that resemble each other are written alike. -/
theorem Resembles.lexemes_eq {c c' : Comparison} (h : c.Resembles c') : c.lexemes = c'.lexemes := by
  have hafter {vs ws : List Value} (h : List.Forall₂ Value.Resembles vs ws) :
      Value.lexemesAfter vs = Value.lexemesAfter ws := by
    induction h with
    | nil => rfl
    | cons h _ ih => rw [Value.lexemesAfter, Value.lexemesAfter, h.lexeme_eq, ih]
  cases h with
  | compare h => rw [lexemes, lexemes, h.lexeme_eq]
  | among h =>
    rw [lexemes, lexemes]
    cases h with
    | nil => rfl
    | cons h hs => rw [Value.lexemesOf, Value.lexemesOf, h.lexeme_eq, hafter hs]
  | modulo hv hw hdivisor hremainder =>
    simp only [lexemes, hv, hw, Number.text_eq_of_resembles hdivisor,
      Number.text_eq_of_resembles hremainder]
  | _ => rfl

end Comparison
end RowFilter
