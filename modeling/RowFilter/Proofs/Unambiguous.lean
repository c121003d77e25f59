import RowFilter.Proofs.Wording

/-!
# Lines that tell their predicates

A predicate on one line tells which predicate it is, up to what is not written: of the fields and
relations only whether a relation leads to many rows, of zero not its sign, and of times of day
nothing but their fields.

Paths are words like any other, and may read as `NOT`, `ANY` or `IN`. Which node a line starts
with is seen from what follows its first word, and a node ends where the line ends, its group
does, or `AND` or `OR` follows.
-/

namespace RowFilter

open Text (IsWord Lexeme isWordChar)
open Text.Lexeme (Apart Closed line startsWord)

/-! ## Paths of names -/

namespace Path

/-- The characters of names. Outside ASCII there are no others. -/
def isNameChar (c : Char) : Bool := c.isAlphanum || c == '_' || c == '$' || 128 ≤ c.toNat

/-- A path of one or more names. -/
structure Dotted (p : Path) : Prop where
  ne_nil : p ≠ []
  ne_empty : ∀ s ∈ p, s ≠ ""
  nameChars : ∀ s ∈ p, ∀ c ∈ s.toList, isNameChar c = true

instance (p : Path) : Decidable p.Dotted :=
  decidable_of_iff (p ≠ [] ∧ (∀ s ∈ p, s ≠ "") ∧ ∀ s ∈ p, s.toList.all isNameChar = true)
    ⟨fun h => ⟨h.1, h.2.1, fun s hs => List.all_eq_true.mp (h.2.2 s hs)⟩,
      fun h => ⟨h.1, h.2, fun s hs => List.all_eq_true.mpr (h.3 s hs)⟩⟩

variable {p q : Path}

theorem Dotted.isPlain (h : p.Dotted) : ∀ s ∈ p, IsPlain s := fun s hs hpoint => by
  cases h.nameChars s hs '.' hpoint

/-- The text of a path of names tells the path. -/
theorem Dotted.text_injective (hp : p.Dotted) (hq : q.Dotted) (h : p.text = q.text) : p = q := by
  rw [← ofText_text hp.ne_nil hp.isPlain, h, ofText_text hq.ne_nil hq.isPlain]

theorem mem_text {c : Char} (h : c ∈ p.text.toList) : c = '.' ∨ ∃ s ∈ p, c ∈ s.toList := by
  cases p with
  | nil => simp [text] at h
  | cons s p =>
    rw [text, Text.toList_intercalate_cons, List.mem_append, List.mem_flatMap] at h
    obtain h | ⟨s', hs', h⟩ := h
    · exact .inr ⟨s, by simp, h⟩
    · obtain h | h := List.mem_append.mp h
      · exact .inl (by simpa using h)
      · exact .inr ⟨s', List.mem_cons_of_mem _ hs', h⟩

/-- The characters of the text of a path of names. -/
theorem Dotted.mem_text (hp : p.Dotted) {c : Char} (h : c ∈ p.text.toList) :
    (c == '.' || isNameChar c) = true := by
  obtain rfl | ⟨s, hs, hc⟩ := Path.mem_text h
  · rfl
  · simp [hp.nameChars s hs c hc]

theorem Dotted.isWord (h : p.Dotted) : IsWord p.text := by
  refine Text.isWord_of_chars ?_ (fun _ => h.mem_text) (by decide)
  obtain ⟨s, p, rfl⟩ := List.exists_cons_of_ne_nil h.ne_nil
  have hs : s.toList ≠ [] := by simpa using h.ne_empty s (by simp)
  rw [text, Text.toList_intercalate_cons]
  exact List.append_ne_nil_of_left_ne_nil hs _

/-- No operator is a path of names. -/
theorem Dotted.text_not_mem (h : p.Dotted) :
    p.text ∉ ["=", "!=", "<", "<=", ">", ">=", "%"] := fun hsymbol => by
  have hchar : ∀ symbol ∈ ["=", "!=", "<", "<=", ">", ">=", "%"],
      symbol.toList.any (fun c => !(c == '.' || isNameChar c)) = true := by decide
  obtain ⟨c, hc, hname⟩ := List.any_eq_true.mp (hchar _ hsymbol)
  simp [h.mem_text hc] at hname

end Path

/-! ## Predicates and their lexemes -/

namespace Predicate

/-- A predicate made of comparisons that a builder accepts, on paths of names. -/
inductive Built : Predicate → Prop
  | true : Built Predicate.true
  | conjunction {ps : List Predicate} : (∀ p ∈ ps, Built p) → Built (conjunction ps)
  | disjunction {ps : List Predicate} : (∀ p ∈ ps, Built p) → Built (disjunction ps)
  | not {p : Predicate} : Built p → Built (.not p)
  | related {relation : RelationField} {path : Path} {p : Predicate} : path.Dotted → Built p →
      Built (.related relation path p)
  | compare {field : ScalarField} {op : CompareOp} {v : Value} {path : Path} {p : Predicate} :
      path.Dotted → v.IsCoerced → compare field op v path = .ok p → Built p
  | like {field : ScalarField} {pattern : Value} {path : Path} {p : Predicate} :
      path.Dotted → like field pattern path = .ok p → Built p
  | among {field : ScalarField} {vs : List Value} {path : Path} {p : Predicate} :
      path.Dotted → (∀ v ∈ vs, v.IsCoerced) → among field (.list vs) path = .ok p → Built p
  | modulo {field : ScalarField} {v : Value} {path : Path} {p : Predicate} :
      path.Dotted → modulo field v path = .ok p → Built p
  | isNull {field : ScalarField} {path : Path} : path.Dotted → Built (isNull field path)
  | notNull {field : ScalarField} {path : Path} : path.Dotted → Built (notNull field path)

/-- The same predicate up to what is not written. -/
inductive Resembles : Predicate → Predicate → Prop
  | all {ps qs : List Predicate} : List.Forall₂ Resembles ps qs → Resembles (.all ps) (.all qs)
  | any {ps qs : List Predicate} : List.Forall₂ Resembles ps qs → Resembles (.any ps) (.any qs)
  | not {p q : Predicate} : Resembles p q → Resembles (.not p) (.not q)
  | related {relation relation' : RelationField} {path : Path} {p q : Predicate} :
      relation.cardinality = relation'.cardinality → Resembles p q →
      Resembles (.related relation path p) (.related relation' path q)
  | test {field field' : ScalarField} {path : Path} {c c' : Comparison} : c.Resembles c' →
      Resembles (.test field path c) (.test field' path c')

/-- What the builders make: a group has two children at least. -/
inductive Shaped : Predicate → Prop
  | true : Shaped Predicate.true
  | all {p q : Predicate} {ps : List Predicate} : Shaped p → (∀ r ∈ q :: ps, Shaped r) →
      Shaped (.all (p :: q :: ps))
  | any {p q : Predicate} {ps : List Predicate} : Shaped p → (∀ r ∈ q :: ps, Shaped r) →
      Shaped (.any (p :: q :: ps))
  | not {p : Predicate} : Shaped p → Shaped (.not p)
  | related {relation : RelationField} {path : Path} {p : Predicate} : path.Dotted → Shaped p →
      Shaped (.related relation path p)
  | test {field : ScalarField} {path : Path} {c : Comparison} : path.Dotted → c.Sound →
      Shaped (.test field path c)

theorem Built.shaped {p : Predicate} (h : p.Built) : p.Shaped := by
  induction h with
  | true => exact .true
  | @conjunction ps _ ih =>
    match ps with
    | [] => exact .true
    | [p] => exact ih p (by simp)
    | p :: q :: ps => exact .all (ih p (by simp)) fun r hr => ih r (List.mem_cons_of_mem _ hr)
  | @disjunction ps _ ih =>
    match ps with
    | [] => exact .true
    | [p] => exact ih p (by simp)
    | p :: q :: ps => exact .any (ih p (by simp)) fun r hr => ih r (List.mem_cons_of_mem _ hr)
  | not _ ih => exact .not ih
  | related hpath _ ih => exact .related hpath ih
  | compare hpath hv h =>
    unfold Predicate.compare at h
    split at h <;> cases h
    exact .test hpath (.compare hv)
  | like hpath h =>
    unfold Predicate.like at h
    split at h <;> cases h
    exact .test hpath .like
  | among hpath hvs h =>
    cases h
    exact .test hpath (.among hvs)
  | @modulo _ v _ _ hpath h =>
    unfold Predicate.modulo at h
    split at h <;> cases h
    next hmodulus =>
      obtain ⟨⟨divisor, remainder⟩, hmodulus⟩ := Option.isSome_iff_exists.mp hmodulus
      exact .test hpath (.modulo hmodulus)
  | isNull hpath => exact .test hpath .isNull
  | notNull hpath => exact .test hpath .notNull

mutual

/-- The lexemes of a rendered predicate. -/
def lexemes : Predicate → List Lexeme
  | .all [] | .any [] => [.word "TRUE"]
  | .all (p :: ps) => .opening :: (lexemes p ++ lexemesAfter "AND" ps)
  | .any (p :: ps) => .opening :: (lexemes p ++ lexemesAfter "OR" ps)
  | .not p => .word "NOT" :: .blank :: lexemes p
  | .related relation path p =>
    .word (quantifier relation.cardinality) :: .blank :: .word path.text ::
      if p.isTrue then []
      else .blank ::
        if p.isCompound then lexemes p else .opening :: (lexemes p ++ [.closing])
  | .test _ path c => .word path.text :: .blank :: c.lexemes

/-- The children of a group after the first, and its end. -/
def lexemesAfter (word : String) : List Predicate → List Lexeme
  | [] => [.closing]
  | p :: ps => .blank :: .word word :: .blank :: (lexemes p ++ lexemesAfter word ps)

end

/-! ### Rendering is writing the lexemes -/

variable {p q : Predicate}

/-- The predicate has a text, which is the line of its lexemes. -/
def Spelled (p : Predicate) : Prop := ∃ s, p.render = .ok s ∧ s.toList = line p.lexemes

theorem exists_texts_after {ps : List Predicate} (word : String) (h : ∀ p ∈ ps, p.Spelled) :
    ∃ texts, renderAll ps = .ok texts ∧ line (lexemesAfter word ps) =
      texts.flatMap (fun s => (" " ++ word ++ " ").toList ++ s.toList) ++ [')'] := by
  induction ps with
  | nil => exact ⟨[], rfl, rfl⟩
  | cons p ps ih =>
    rw [List.forall_mem_cons] at h
    obtain ⟨text, htext, hline⟩ := h.1
    obtain ⟨texts, htexts, hlines⟩ := ih h.2
    refine ⟨text :: texts, by rw [renderAll, htext, htexts]; rfl, ?_⟩
    simp [lexemesAfter, Lexeme.spell, hline, hlines]

/-- A group of children is written between its marks. -/
theorem exists_text_group {ps : List Predicate} (word : String) (hp : p.Spelled)
    (hps : ∀ r ∈ ps, r.Spelled) :
    ∃ texts, renderAll (p :: ps) = .ok texts ∧
      ("(" ++ (" " ++ word ++ " ").intercalate texts ++ ")").toList =
        line (.opening :: (lexemes p ++ lexemesAfter word ps)) := by
  obtain ⟨text, htext, hline⟩ := hp
  obtain ⟨texts, htexts, hlines⟩ := exists_texts_after word hps
  refine ⟨text :: texts, by rw [renderAll, htext, htexts]; rfl, ?_⟩
  rw [String.toList_append, String.toList_append, Text.toList_intercalate_cons,
    Text.Lexeme.line_cons, Text.Lexeme.line_append, hlines, hline, Lexeme.spell]
  simp

theorem Shaped.spelled (h : p.Shaped) : p.Spelled := by
  induction h with
  | true => exact ⟨"TRUE", rfl, by simp [Predicate.true, lexemes, Lexeme.spell]⟩
  | all _ _ ih ihs =>
    obtain ⟨texts, htexts, hline⟩ := exists_text_group "AND" ih ihs
    refine ⟨_, ?_, hline⟩
    rw [render, htexts]
    · rfl
    · simp
  | any _ _ ih ihs =>
    obtain ⟨texts, htexts, hline⟩ := exists_text_group "OR" ih ihs
    refine ⟨_, ?_, hline⟩
    rw [render, htexts]
    · rfl
    · simp
  | not _ ih =>
    obtain ⟨text, htext, hline⟩ := ih
    exact ⟨_, by rw [render, htext]; rfl, by simp [lexemes, Lexeme.spell, hline]⟩
  | @related relation path p hpath hp ih =>
    obtain ⟨text, htext, hline⟩ := ih
    cases htrue : p.isTrue with
    | true =>
      refine ⟨_, by rw [render]; simp only [htrue, if_true]; rfl, ?_⟩
      simp [lexemes, htrue, Lexeme.spell]
    | false =>
      refine ⟨_, by rw [render, htext]; simp only [htrue]; rfl, ?_⟩
      cases hcompound : p.isCompound <;> simp [lexemes, htrue, hcompound, Lexeme.spell, hline]
  | @test field path c hpath hc =>
    obtain ⟨text, htext, hline⟩ := hc.render_eq
    exact ⟨_, by rw [render, htext]; rfl, by simp [lexemes, Lexeme.spell, hline]⟩

/-! ### Words apart -/

theorem closed_lexemesAfter {ps : List Predicate} (word : String) (hword : IsWord word)
    (h : ∀ p ∈ ps, Closed p.lexemes) :
    Closed (lexemesAfter word ps) ∧ startsWord (lexemesAfter word ps) = false := by
  induction ps with
  | nil => exact ⟨.mark rfl .nil, rfl⟩
  | cons p ps ih =>
    rw [List.forall_mem_cons] at h
    obtain ⟨hclosed, hstart⟩ := ih h.2
    exact ⟨.mark rfl (.word hword (.mark rfl (h.1.append hclosed hstart)) rfl), rfl⟩

theorem Shaped.closed (h : p.Shaped) : Closed p.lexemes := by
  have hkeyword {s : String} (hs : IsWord s) {ts : List Lexeme} (hts : Closed ts) :
      Closed (.word s :: .blank :: ts) := .word hs (.mark rfl hts) rfl
  induction h with
  | true => exact .word (by decide) .nil rfl
  | all _ _ ih ihs =>
    obtain ⟨hclosed, hstart⟩ := closed_lexemesAfter "AND" (by decide) ihs
    exact .mark rfl (ih.append hclosed hstart)
  | any _ _ ih ihs =>
    obtain ⟨hclosed, hstart⟩ := closed_lexemesAfter "OR" (by decide) ihs
    exact .mark rfl (ih.append hclosed hstart)
  | not _ ih => exact hkeyword (by decide) ih
  | @related relation path p hpath _ ih =>
    rw [lexemes]
    refine hkeyword ?_ ?_
    · cases relation.cardinality <;> decide
    · split
      · exact .word hpath.isWord .nil rfl
      · refine hkeyword hpath.isWord ?_
        split
        · exact ih
        · exact .mark rfl (ih.append (.mark rfl .nil) rfl)
  | test hpath hc => exact hkeyword hpath.isWord hc.closed

end Predicate

/-! ## The first node of a line -/

namespace Lookahead

variable {ts us : List Lexeme}

inductive NodeKind where
  | constant
  | group
  | denial
  | related
  | test
deriving DecidableEq

/-- What may follow a predicate: the end of the line or of its group, or the next child. -/
def Follows : List Lexeme → Prop
  | [] | .closing :: _ => True
  | .blank :: .word s :: _ => s = "AND" ∨ s = "OR"
  | _ => False

/-- What a predicate starts with, unless it is true and ends there. -/
def StartsNode (ts : List Lexeme) : Prop :=
  (∃ us, ts = .opening :: us) ∨ ∃ s us, ts = .word s :: .blank :: us

/-- Are these the values of a list, and not a predicate? A value is followed by the next one or by
the end of the list. -/
def listsValues : List Lexeme → Bool
  | .closing :: _ => true
  | .word _ :: .closing :: _ | .word _ :: .comma :: _ => true
  | .quoted _ :: .closing :: _ | .quoted _ :: .comma :: _ => true
  | _ => false

def symbols : List String := ["=", "!=", "<", "<=", ">", ">=", "%"]

/-- Is a word the path of a comparison that goes on like this? -/
def comparesAfter : List Lexeme → Bool
  | .blank :: .word op :: .blank :: ts =>
    symbols.contains op ||
      match ts with
      | .quoted _ :: _ => op == "LIKE"
      | .word s :: _ => op == "IS" && (s == "NULL" || s == "NOT")
      | .opening :: us => op == "IN" && listsValues us
      | _ => false
  | _ => false

/-- The kind of node that a line starts with. -/
def nodeAhead : List Lexeme → NodeKind
  | .word s :: ts =>
    if comparesAfter ts then .test
    else if s = "TRUE" then .constant
    else if s = "NOT" then .denial
    else .related
  | _ => .group

theorem listsValues_lexemesOf {vs : List Value} (h : ∀ v ∈ vs, v.IsCoerced) :
    listsValues (Value.lexemesOf vs ++ ts) = true := by
  cases vs with
  | nil => rfl
  | cons v vs =>
    rw [List.forall_mem_cons] at h
    obtain ⟨s, rfl⟩ | ⟨s, hs⟩ := h.1.cases
    · cases vs <;> rfl
    · rw [Value.lexemesOf, hs.lexeme_eq]
      cases vs <;> rfl

theorem listsValues_of_startsNode (h : StartsNode ts) : listsValues ts = false := by
  obtain ⟨us, rfl⟩ | ⟨s, us, rfl⟩ := h <;> rfl

/-- Comparisons are seen from what follows their path. -/
theorem comparesAfter_lexemes {c : Comparison} (h : c.Sound) (ts : List Lexeme) :
    comparesAfter (.blank :: (c.lexemes ++ ts)) = true := by
  cases h with
  | @compare op => cases op <;> rfl
  | like => rfl
  | among hvs =>
    simp [Comparison.lexemes, comparesAfter, listsValues_lexemesOf hvs]
  | modulo hv =>
    simp only [Comparison.lexemes, hv]
    rfl
  | isNull => rfl
  | notNull => rfl

theorem comparesAfter_of_follows (h : Follows ts) : comparesAfter ts = false := by
  unfold Follows at h
  split at h
  · rfl
  · rfl
  · next s us =>
    obtain rfl | rfl := h
    all_goals
      unfold comparesAfter
      split
      · next op rest heq =>
        cases heq
        split <;> rfl
      · rfl
  · cases h

/-- A word that is no operator starts no comparison as its second word. -/
theorem comparesAfter_word {s : String} (hsymbol : s ∉ symbols) (hword : s ∉ ["LIKE", "IS", "IN"]) :
    comparesAfter (.blank :: .word s :: ts) = false := by
  simp only [List.mem_cons, List.not_mem_nil, or_false, not_or] at hword
  unfold comparesAfter
  split
  · next op us heq =>
    cases heq
    simp only [List.contains_eq_mem, hsymbol, decide_false, Bool.false_or]
    split <;> simp [hword]
  · rfl

/-- A path before a comparison is not the operator of another comparison. -/
theorem comparesAfter_path {path : Path} (hpath : path.Dotted) {c : Comparison} (hc : c.Sound) :
    comparesAfter (.blank :: .word path.text :: .blank :: (c.lexemes ++ ts)) = false := by
  have hop : c.opWord ≠ "NULL" ∧ c.opWord ≠ "NOT" := by
    cases hc with
    | @compare op => cases op <;> simp [Comparison.opWord, CompareOp.symbol]
    | _ => simp [Comparison.opWord]
  obtain ⟨us, hus⟩ := hc.lexemes_eq
  have hsymbol : path.text ∉ symbols := hpath.text_not_mem
  simp [comparesAfter, hus, hsymbol, hop]

/-- The path of a related node is not the operator of a comparison. -/
theorem comparesAfter_related {path : Path} (hpath : path.Dotted)
    (hts : Follows ts ∨ ∃ us, ts = .blank :: .opening :: us ∧ StartsNode us) :
    comparesAfter (.blank :: .word path.text :: ts) = false := by
  have hsymbol : path.text ∉ symbols := hpath.text_not_mem
  obtain hts | ⟨us, rfl, hus⟩ := hts
  · unfold Follows at hts
    split at hts
    · rfl
    · rfl
    · next s us =>
      obtain rfl | rfl := hts <;> simp [comparesAfter, hsymbol]
    · cases hts
  · simp [comparesAfter, hsymbol, listsValues_of_startsNode hus]

end Lookahead

namespace Predicate

open Lookahead

variable {p q : Predicate} {ts us : List Lexeme}

theorem follows_lexemesAfter {word : String} (hword : word = "AND" ∨ word = "OR")
    (ps : List Predicate) (ts : List Lexeme) : Follows (lexemesAfter word ps ++ ts) := by
  cases ps with
  | nil => trivial
  | cons p ps => exact hword

/-- Before a child that is not the last stands what starts a predicate. -/
theorem Shaped.startsNode (h : p.Shaped) (hts : p.isTrue = Bool.false ∨ ∃ us, ts = .blank :: us) :
    StartsNode (p.lexemes ++ ts) := by
  cases h with
  | true =>
    obtain hts | ⟨us, rfl⟩ := hts
    · cases hts
    · exact .inr ⟨_, _, rfl⟩
  | all => exact .inl ⟨_, rfl⟩
  | any => exact .inl ⟨_, rfl⟩
  | _ => exact .inr ⟨_, _, rfl⟩

/-! ### Groups -/

/-- A predicate in parentheses, its own or those of a related node: the word between the children,
the first child and the others. -/
inductive Grouped : Predicate → String → Predicate → List Predicate → Prop
  | all {p q : Predicate} {ps : List Predicate} : Grouped (.all (p :: q :: ps)) "AND" p (q :: ps)
  | any {p q : Predicate} {ps : List Predicate} : Grouped (.any (p :: q :: ps)) "OR" p (q :: ps)
  | single {p : Predicate} : p.isCompound = Bool.false → Grouped p "AND" p []

/-- What follows the path of a related node. -/
def grouping (p : Predicate) : List Lexeme :=
  if p.isTrue then []
  else .blank :: if p.isCompound then p.lexemes else .opening :: (p.lexemes ++ [.closing])

theorem lexemes_related (relation : RelationField) (path : Path) (p : Predicate) :
    lexemes (.related relation path p) =
      .word (quantifier relation.cardinality) :: .blank :: .word path.text :: grouping p :=
  rfl

/-- Nothing follows the path if the inner predicate is true, and otherwise a group. -/
theorem Shaped.grouping_cases (h : p.Shaped) :
    p = Predicate.true ∧ grouping p = [] ∨ p.isTrue = Bool.false ∧ ∃ word first rest,
      Grouped p word first rest ∧
        grouping p = .blank :: .opening :: (first.lexemes ++ lexemesAfter word rest) := by
  cases h with
  | true => exact .inl ⟨rfl, rfl⟩
  | all => exact .inr ⟨rfl, _, _, _, .all, rfl⟩
  | any => exact .inr ⟨rfl, _, _, _, .any, rfl⟩
  | _ => exact .inr ⟨rfl, _, _, _, .single rfl, rfl⟩

theorem Grouped.word_eq {word : String} {first : Predicate} {rest : List Predicate}
    (h : Grouped p word first rest) : word = "AND" ∨ word = "OR" := by
  cases h with
  | any => exact .inr rfl
  | _ => exact .inl rfl

theorem Grouped.shaped {word : String} {first : Predicate} {rest : List Predicate}
    (h : Grouped p word first rest) (hp : p.Shaped) :
    first.Shaped ∧ ∀ r ∈ rest, r.Shaped := by
  cases h with
  | all =>
    cases hp with
    | all hfirst hrest => exact ⟨hfirst, hrest⟩
  | any =>
    cases hp with
    | any hfirst hrest => exact ⟨hfirst, hrest⟩
  | single => exact ⟨hp, fun _ h => nomatch h⟩

/-- Groups with the same children and the same word between them. -/
theorem Grouped.resembles {word word' : String} {first first' : Predicate}
    {rest rest' : List Predicate}
    (h : Grouped p word first rest) (h' : Grouped q word' first' rest')
    (hfirst : first.Resembles first') (hrest : List.Forall₂ Resembles rest rest')
    (hword : rest ≠ [] → word = word') : p.Resembles q := by
  cases h with
  | all =>
    cases h' with
    | all => exact .all (.cons hfirst hrest)
    | any => simp at hword
    | single => cases hrest
  | any =>
    cases h' with
    | all => simp at hword
    | any => exact .any (.cons hfirst hrest)
    | single => cases hrest
  | single =>
    cases h' with
    | single => exact hfirst
    | _ => cases hrest

/-- In a group that starts another predicate follows, or it is the only one and not true. -/
theorem Grouped.startsNode {word : String} {first : Predicate} {rest : List Predicate}
    (h : Grouped p word first rest) (hp : p.Shaped) (htrue : p.isTrue = Bool.false) :
    StartsNode (first.lexemes ++ (lexemesAfter word rest ++ ts)) := by
  refine (h.shaped hp).1.startsNode ?_
  cases h with
  | single => exact .inl htrue
  | _ => exact .inr ⟨_, rfl⟩

/-! ### Telling predicates -/

def nodeKind : Predicate → NodeKind
  | .all [] | .any [] => .constant
  | .all _ | .any _ => .group
  | .not _ => .denial
  | .related _ _ _ => .related
  | .test _ _ _ => .test

theorem follows_grouping_or (hp : p.Shaped) (hts : Follows ts) :
    Follows (grouping p ++ ts) ∨
      ∃ us, grouping p ++ ts = .blank :: .opening :: us ∧ StartsNode us := by
  obtain ⟨_, hgrouping⟩ | ⟨htrue, word, first, rest, hgroup, hgrouping⟩ := hp.grouping_cases
  · rw [hgrouping]
    exact .inl hts
  · refine .inr ⟨first.lexemes ++ (lexemesAfter word rest ++ ts), ?_,
      hgroup.startsNode hp htrue⟩
    rw [hgrouping, List.cons_append, List.cons_append, List.append_assoc]

theorem quantifier_not_mem (cardinality : Cardinality) :
    quantifier cardinality ∉ symbols ∧ quantifier cardinality ∉ ["LIKE", "IS", "IN"] := by
  cases cardinality <;> decide

/-- The first lexemes of a line tell the kind of node that it starts with. -/
theorem nodeAhead_lexemes (h : p.Shaped) (hts : Follows ts) :
    nodeAhead (p.lexemes ++ ts) = p.nodeKind := by
  cases h with
  | true =>
    show nodeAhead (.word "TRUE" :: ts) = .constant
    simp [nodeAhead, comparesAfter_of_follows hts]
  | all => rfl
  | any => rfl
  | @not p hp =>
    have hno : comparesAfter (.blank :: (p.lexemes ++ ts)) = false := by
      cases hp with
      | true => exact comparesAfter_word (by decide) (by decide)
      | not => exact comparesAfter_word (by decide) (by decide)
      | related =>
        obtain ⟨hsymbol, hword⟩ := quantifier_not_mem _
        exact comparesAfter_word hsymbol hword
      | test hpath hc => exact comparesAfter_path hpath hc
      | _ => rfl
    show nodeAhead (.word "NOT" :: .blank :: (p.lexemes ++ ts)) = .denial
    simp [nodeAhead, hno]
  | @related relation path p hpath hp =>
    have hno := comparesAfter_related hpath (follows_grouping_or hp hts)
    rw [lexemes_related]
    simp only [List.cons_append, nodeAhead, hno]
    cases relation.cardinality <;> rfl
  | @test field path c hpath hc =>
    have hyes := comparesAfter_lexemes hc ts
    show nodeAhead (.word path.text :: .blank :: (c.lexemes ++ ts)) = .test
    simp [nodeAhead, hyes]

/-- The predicate is told by its lexemes, whatever follows. -/
def Told (p : Predicate) : Prop :=
  ∀ q ts us, q.Shaped → Follows ts → Follows us → p.lexemes ++ ts = q.lexemes ++ us →
    p.Resembles q ∧ ts = us

/-- The children of a group after the first are told, with the word between them. -/
theorem told_after {word word' : String} {ps qs : List Predicate}
    (hword : word = "AND" ∨ word = "OR") (hword' : word' = "AND" ∨ word' = "OR")
    (hps : ∀ p ∈ ps, p.Told) (hqs : ∀ q ∈ qs, q.Shaped)
    (h : lexemesAfter word ps ++ ts = lexemesAfter word' qs ++ us) :
    List.Forall₂ Resembles ps qs ∧ (ps ≠ [] → word = word') ∧ ts = us := by
  induction ps generalizing qs with
  | nil =>
    cases qs with
    | nil => exact ⟨.nil, fun h => absurd rfl h, (List.cons.inj h).2⟩
    | cons q qs => cases h
  | cons p ps ih =>
    cases qs with
    | nil => cases h
    | cons q qs =>
      rw [List.forall_mem_cons] at hps hqs
      simp only [lexemesAfter, List.cons_append, List.append_assoc, List.cons.injEq, true_and,
        Lexeme.word.injEq] at h
      obtain ⟨hsame, htail⟩ := h
      obtain ⟨hsimilar, hrest⟩ := hps.1 q _ _ hqs.1 (follows_lexemesAfter hword ps ts)
        (follows_lexemesAfter hword' qs us) htail
      obtain ⟨hchildren, _, hend⟩ := ih hps.2 hqs.2 hrest
      exact ⟨.cons hsimilar hchildren, fun _ => hsame, hend⟩

/-- Groups whose children are told are told. -/
theorem told_group {word word' : String} {first first' : Predicate} {rest rest' : List Predicate}
    (h : Grouped p word first rest) (h' : Grouped q word' first' rest') (hq : q.Shaped)
    (hfirst : first.Told) (hrest : ∀ r ∈ rest, r.Told)
    (heq : first.lexemes ++ lexemesAfter word rest ++ ts =
      first'.lexemes ++ lexemesAfter word' rest' ++ us) :
    p.Resembles q ∧ ts = us := by
  obtain ⟨hfirst', hrest'⟩ := h'.shaped hq
  rw [List.append_assoc, List.append_assoc] at heq
  obtain ⟨hsimilar, heq⟩ := hfirst first' _ _ hfirst' (follows_lexemesAfter h.word_eq rest ts)
    (follows_lexemesAfter h'.word_eq rest' us) heq
  obtain ⟨hchildren, hword, hend⟩ := told_after h.word_eq h'.word_eq hrest hrest' heq
  exact ⟨h.resembles h' hsimilar hchildren hword, hend⟩

/-- The predicates in the parentheses of a predicate. -/
def members : Predicate → List Predicate
  | .all ps | .any ps => ps
  | _ => []

theorem quantifier_injective {cardinality cardinality' : Cardinality}
    (h : quantifier cardinality = quantifier cardinality') : cardinality = cardinality' := by
  cases cardinality <;> cases cardinality' <;> first | rfl | simp [quantifier] at h

/-- The children of a group, or the predicate itself where it stands in the parentheses of a
related node, are told. -/
theorem Grouped.told {word : String} {first : Predicate} {rest : List Predicate}
    (h : Grouped p word first rest) (hp : p.Told) (hmembers : ∀ r ∈ p.members, r.Told) :
    first.Told ∧ ∀ r ∈ rest, r.Told := by
  cases h with
  | single => exact ⟨hp, fun _ h => nomatch h⟩
  | _ => exact List.forall_mem_cons.mp hmembers

/-- What a related node asks of the other rows is told. -/
theorem told_grouping (hp : p.Shaped) (hq : q.Shaped) (htold : p.Told)
    (hmembers : ∀ r ∈ p.members, r.Told) (hts : Follows ts) (hus : Follows us)
    (h : grouping p ++ ts = grouping q ++ us) : p.Resembles q ∧ ts = us := by
  obtain ⟨rfl, hgrouping⟩ | ⟨_, word, first, rest, hgroup, hgrouping⟩ := hp.grouping_cases
  · obtain ⟨rfl, hgrouping'⟩ | ⟨_, word', first', rest', _, hgrouping'⟩ := hq.grouping_cases
    · exact ⟨.all .nil, h⟩
    · have hts : Follows (grouping q ++ us) := h ▸ hts
      rw [hgrouping'] at hts
      cases hts
  · obtain ⟨rfl, hgrouping'⟩ | ⟨_, word', first', rest', hgroup', hgrouping'⟩ :=
      hq.grouping_cases
    · have hus : Follows (grouping p ++ ts) := h ▸ hus
      rw [hgrouping] at hus
      cases hus
    · obtain ⟨hfirst, hrest⟩ := hgroup.told htold hmembers
      rw [hgrouping, hgrouping'] at h
      exact told_group hgroup hgroup' hq hfirst hrest (List.cons.inj (List.cons.inj h).2).2

theorem told_related {relation : RelationField} {path : Path} (hpath : path.Dotted)
    (hp : p.Shaped) (htold : p.Told) (hmembers : ∀ r ∈ p.members, r.Told) :
    (related relation path p).Told := by
  intro q ts us hq hts hus h
  have hshaped : (related relation path p).Shaped := .related hpath hp
  have hkind := nodeAhead_lexemes hshaped hts
  rw [h, nodeAhead_lexemes hq hus] at hkind
  cases hq with
  | related hpath' hq =>
    simp only [lexemes_related, List.cons_append, List.cons.injEq, Lexeme.word.injEq,
      true_and] at h
    obtain ⟨hquantifier, hpaths, h⟩ := h
    have hpaths := hpath.text_injective hpath' hpaths
    subst hpaths
    obtain ⟨hsimilar, hend⟩ := told_grouping hp hq htold hmembers hts hus h
    exact ⟨.related (quantifier_injective hquantifier) hsimilar, hend⟩
  | _ => cases hkind

/-- A group is told if its children are. -/
theorem told_of_members {word : String} {first : Predicate} {rest : List Predicate}
    (hp : p.Shaped) (hgroup : Grouped p word first rest)
    (hkind : p.nodeKind = .group) (hlexemes : p.lexemes = .opening :: (first.lexemes ++
      lexemesAfter word rest)) (hfirst : first.Told) (hrest : ∀ r ∈ rest, r.Told) : p.Told := by
  intro q ts us hq hts hus h
  have hkind' := nodeAhead_lexemes hp hts
  rw [h, nodeAhead_lexemes hq hus, hkind] at hkind'
  rw [hlexemes] at h
  cases hq with
  | true => cases hkind'
  | all hfirst' hrest' =>
    exact told_group hgroup .all (.all hfirst' hrest') hfirst hrest (List.cons.inj h).2
  | any hfirst' hrest' =>
    exact told_group hgroup .any (.any hfirst' hrest') hfirst hrest (List.cons.inj h).2
  | _ => cases hkind'

/-- Every predicate is told by its lexemes, and so are its children. -/
theorem Shaped.told (h : p.Shaped) : p.Told ∧ ∀ r ∈ p.members, r.Told := by
  induction h with
  | true =>
    refine ⟨fun q ts us hq hts hus h => ?_, fun _ h => nomatch h⟩
    have hkind := nodeAhead_lexemes .true hts
    rw [h, nodeAhead_lexemes hq hus] at hkind
    cases hq with
    | true => exact ⟨.all .nil, List.append_cancel_left h⟩
    | _ => cases hkind
  | all hp hps ih ihs =>
    have hrest r hr := (ihs r hr).1
    exact ⟨told_of_members (.all hp hps) .all rfl rfl ih.1 hrest,
      List.forall_mem_cons.mpr ⟨ih.1, hrest⟩⟩
  | any hp hps ih ihs =>
    have hrest r hr := (ihs r hr).1
    exact ⟨told_of_members (.any hp hps) .any rfl rfl ih.1 hrest,
      List.forall_mem_cons.mpr ⟨ih.1, hrest⟩⟩
  | not hp ih =>
    refine ⟨fun q ts us hq hts hus h => ?_, fun _ h => nomatch h⟩
    have hkind := nodeAhead_lexemes (Shaped.not hp) hts
    rw [h, nodeAhead_lexemes hq hus] at hkind
    cases hq with
    | not hq =>
      obtain ⟨hsimilar, hend⟩ := ih.1 _ ts us hq hts hus (List.cons.inj (List.cons.inj h).2).2
      exact ⟨.not hsimilar, hend⟩
    | _ => cases hkind
  | related hpath hp ih =>
    exact ⟨told_related hpath hp ih.1 ih.2, fun _ h => nomatch h⟩
  | @test field path c hpath hc =>
    refine ⟨fun q ts us hq hts hus h => ?_, fun _ h => nomatch h⟩
    have hshaped : (Predicate.test field path c).Shaped := .test hpath hc
    have hkind := nodeAhead_lexemes hshaped hts
    rw [h, nodeAhead_lexemes hq hus] at hkind
    cases hq with
    | test hpath' hc' =>
      obtain ⟨hpaths, h⟩ := List.cons.inj h
      obtain ⟨hsimilar, hend⟩ := hc.resembles_of_lexemes_eq hc' (List.cons.inj h).2
      have hpaths := hpath.text_injective hpath' (Lexeme.word.inj hpaths)
      subst hpaths
      exact ⟨.test hsimilar, hend⟩
    | _ => cases hkind

/-! ### Predicates that resemble each other -/

theorem Resembles.isTrue_eq (h : p.Resembles q) : p.isTrue = q.isTrue := by
  cases h with
  | all h => cases h <;> rfl
  | _ => rfl

theorem Resembles.isCompound_eq (h : p.Resembles q) : p.isCompound = q.isCompound := by
  cases h <;> rfl

theorem lexemesAfter_congr {word : String} {ps qs : List Predicate}
    (h : List.Forall₂ Resembles ps qs)
    (hps : ∀ p ∈ ps, ∀ q, p.Resembles q → p.lexemes = q.lexemes) :
    lexemesAfter word ps = lexemesAfter word qs := by
  induction h with
  | nil => rfl
  | cons h _ ih =>
    rw [List.forall_mem_cons] at hps
    rw [lexemesAfter, lexemesAfter, hps.1 _ h, ih hps.2]

/-- Predicates that resemble each other are written alike. -/
theorem Shaped.lexemes_eq_of_resembles (hp : p.Shaped) (h : p.Resembles q) :
    p.lexemes = q.lexemes := by
  induction hp generalizing q with
  | true =>
    cases h with
    | all h =>
      cases h
      rfl
  | all _ _ ih ihs =>
    cases h with
    | all h =>
      cases h with
      | cons h hs => rw [lexemes, lexemes, ih h, lexemesAfter_congr hs fun r hr _ => ihs r hr]
  | any _ _ ih ihs =>
    cases h with
    | any h =>
      cases h with
      | cons h hs => rw [lexemes, lexemes, ih h, lexemesAfter_congr hs fun r hr _ => ihs r hr]
  | not _ ih =>
    cases h with
    | not h => rw [lexemes, lexemes, ih h]
  | related _ _ ih =>
    cases h with
    | related hcardinality h =>
      rw [lexemes_related, lexemes_related, hcardinality, grouping, grouping, h.isTrue_eq,
        h.isCompound_eq, ih h]
  | test =>
    cases h with
    | test h => rw [lexemes, lexemes, h.lexemes_eq]

end Predicate

/-- Predicates made by the builders, of coerced operands and on paths of names, can be rendered,
and the texts of two of them are the same just when the predicates are, up to what is not
written. -/
theorem built_rendered_eq_iff_resembles {p q : Predicate} (hp : p.Built) (hq : q.Built) :
    ∃ s t, p.render = .ok s ∧ q.render = .ok t ∧ (s = t ↔ p.Resembles q) := by
  obtain ⟨s, hs, hline⟩ := hp.shaped.spelled
  obtain ⟨t, ht, hline'⟩ := hq.shaped.spelled
  refine ⟨s, t, hs, ht, ?_⟩
  rw [← String.toList_inj, hline, hline']
  constructor
  · intro h
    have hlexemes := Text.Lexeme.line_injective hp.shaped.closed.apart hq.shaped.closed.apart h
    refine (hp.shaped.told.1 q [] [] hq.shaped trivial trivial ?_).1
    rw [hlexemes]
  · intro h
    rw [hp.shaped.lexemes_eq_of_resembles h]

namespace Sample
open Predicate

/-- A predicate whose paths read like words of the line that it is written on. -/
def wordy (field : ScalarField) (relation : RelationField) (n : Number) : Predicate :=
  conjunction [
    .not (.test field ["NOT"] (.compare .eq (.number n))),
    .related relation ["LIKE"] (.test field ["ANY", "IN"] (.among [.number n, .null]))]

theorem built_wordy (field : ScalarField) (relation : RelationField) (n : Number) :
    (wordy field relation n).Built := by
  have hnot : Path.Dotted ["NOT"] := by decide
  have hlike : Path.Dotted ["LIKE"] := by decide
  have hin : Path.Dotted ["ANY", "IN"] := by decide
  have hvalues : ∀ v ∈ [Value.number n, .null], v.IsCoerced := by
    simp [Value.IsCoerced.number, Value.IsCoerced.null]
  have hcompare : Predicate.compare field .eq (.number n) ["NOT"] =
      .ok (.test field ["NOT"] (.compare .eq (.number n))) := rfl
  have hamong : Predicate.among field (.list [.number n, .null]) ["ANY", "IN"] =
      .ok (.test field ["ANY", "IN"] (.among [.number n, .null])) := rfl
  have hfirst := Built.not (.compare hnot .number hcompare)
  have hsecond : (Predicate.related relation ["LIKE"] _).Built :=
    .related hlike (.among hin hvalues hamong)
  exact .conjunction (by simp [hfirst, hsecond])

/-- Two such predicates on different fields, with the two zeros. -/
theorem built_rendered_eq_iff_resembles_wordy :
    let p := wordy ⟨"a", "A", .scalar .int⟩ ⟨"r", "A", "A", .many⟩ (.zero false)
    let q := wordy ⟨"b", "B", .scalar .float⟩ ⟨"s", "B", "B", .many⟩ (.zero true)
    p.Built ∧ q.Built ∧ p.render = .ok "(NOT NOT = 0 AND ANY LIKE (ANY.IN IN (0, NULL)))" ∧
      p.Resembles q := by
  intro p q
  obtain ⟨s, t, hs, ht, hsimilar⟩ := built_rendered_eq_iff_resembles
    (built_wordy ⟨"a", "A", .scalar .int⟩ ⟨"r", "A", "A", .many⟩ (.zero false))
    (built_wordy ⟨"b", "B", .scalar .float⟩ ⟨"s", "B", "B", .many⟩ (.zero true))
  have hrender : p.render = .ok "(NOT NOT = 0 AND ANY LIKE (ANY.IN IN (0, NULL)))" := rfl
  have hrender' : q.render = .ok "(NOT NOT = 0 AND ANY LIKE (ANY.IN IN (0, NULL)))" := rfl
  refine ⟨built_wordy _ _ _, built_wordy _ _ _, hrender, hsimilar.mp ?_⟩
  exact Except.ok.inj (hs.symm.trans (hrender.trans (hrender'.symm.trans ht)))

end Sample
end RowFilter
