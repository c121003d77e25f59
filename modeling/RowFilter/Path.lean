import RowFilter.Text.Digits
import RowFilter.Text.Spelling

/-!
# Field paths

A path names a field by the segments that lead to it from a root model; its text joins the
segments with points. A segment of digits is a list index. It holds a place and selects
nothing, so that a path without its indices names the same field.

Paths come from outside and are looked up segment by segment. Segments that could never name a
declared field, and could reach something else, are problems.
-/

namespace RowFilter

abbrev Path := List String

namespace Path

/-- Cuts a text at its points. There is always one more piece than points. -/
def cut : List Char → List (List Char)
  | [] => [[]]
  | c :: s =>
    if c = '.' then [] :: cut s
    else match cut s with
      | piece :: rest => (c :: piece) :: rest
      | [] => [[c]]

def ofText (s : String) : Path := (cut s.toList).map String.ofList

def text (p : Path) : String := ".".intercalate p

theorem cut_ne_nil (s : List Char) : cut s ≠ [] := by
  cases s with
  | nil => simp [cut]
  | cons c s =>
    simp only [cut]
    split
    · simp
    · split <;> simp

theorem intercalate_cut (s : List Char) : ['.'].intercalate (cut s) = s := by
  induction s with
  | nil => rfl
  | cons c s ih =>
    simp only [cut]
    split
    · next h =>
      cases hs : cut s with
      | nil => exact absurd hs (cut_ne_nil s)
      | cons piece rest => rw [hs] at ih; simp [h, ih]
    · split
      · next piece rest hs =>
        rw [hs] at ih
        cases rest <;> simp_all
      · next hs => exact absurd hs (cut_ne_nil s)

/-- Cutting and joining gives the text back. -/
theorem text_ofText (s : String) : text (ofText s) = s := by
  apply String.toList_inj.mp
  simp [text, ofText, Function.comp_def, intercalate_cut]

theorem cut_of_not_mem {s : List Char} (h : '.' ∉ s) : cut s = [s] := by
  induction s with
  | nil => rfl
  | cons c s ih =>
    simp only [List.mem_cons, not_or] at h
    simp [cut, Ne.symm h.1, ih h.2]

/-- A point cuts between the pieces before it and those after it. -/
theorem cut_append_point (s t : List Char) : cut (s ++ '.' :: t) = cut s ++ cut t := by
  induction s with
  | nil => simp [cut]
  | cons c s ih =>
    obtain ⟨piece, rest, hs⟩ := List.exists_cons_of_ne_nil (cut_ne_nil s)
    rw [List.cons_append, cut, ih, hs, cut, hs]
    split <;> rfl

theorem cut_append {s : List Char} (h : '.' ∉ s) (t : List Char) :
    cut (s ++ '.' :: t) = s :: cut t := by
  rw [cut_append_point, cut_of_not_mem h]
  rfl

/-- No piece has a point in it. -/
theorem not_mem_of_mem_cut {s piece : List Char} (h : piece ∈ cut s) : '.' ∉ piece := by
  induction s generalizing piece with
  | nil => simp_all [cut]
  | cons c s ih =>
    simp only [cut] at h
    split at h
    · rcases List.mem_cons.mp h with rfl | h
      · simp
      · exact ih h
    · next hc =>
      split at h
      · next head rest hs =>
        rw [hs] at ih
        rcases List.mem_cons.mp h with rfl | h
        · simpa [Ne.symm hc] using ih (List.mem_cons_self)
        · exact ih (List.mem_cons_of_mem _ h)
      · simp_all [Ne.symm hc]

/-- A segment of a path that was cut from a text. -/
def IsPlain (segment : String) : Prop := '.' ∉ segment.toList

theorem isPlain_of_mem_ofText {s segment : String} (h : segment ∈ ofText s) :
    IsPlain segment := by
  obtain ⟨piece, hp, rfl⟩ := List.mem_map.mp h
  simpa [IsPlain] using not_mem_of_mem_cut hp

theorem ofText_ne_nil (s : String) : ofText s ≠ [] := by
  simp [ofText, cut_ne_nil]

/-- Joining and cutting gives a path of plain segments back, unless it has none. -/
theorem ofText_text {p : Path} (hp : p ≠ []) (h : ∀ s ∈ p, IsPlain s) : ofText (text p) = p := by
  suffices ∀ (q : List (List Char)), q ≠ [] → (∀ s ∈ q, '.' ∉ s) →
      cut (['.'].intercalate q) = q by
    have := this (p.map String.toList) (by simpa using hp) (by simpa [IsPlain] using h)
    simp [ofText, text, this, Function.comp_def]
  intro q hq h
  induction q with
  | nil => exact absurd rfl hq
  | cons s q ih =>
    cases q with
    | nil => simpa using cut_of_not_mem (h s (by simp))
    | cons t q =>
      simp only [List.intercalate_cons_cons, List.append_assoc, List.singleton_append]
      rw [cut_append (h s (by simp)), ih (by simp) fun s hs => h s (by simp [hs])]

/-- A point joins the paths on both sides of it. -/
theorem ofText_append_point (s t : String) : ofText (s ++ "." ++ t) = ofText s ++ ofText t := by
  have hchars : (s ++ "." ++ t).toList = s.toList ++ '.' :: t.toList := by simp
  rw [ofText, hchars, cut_append_point, List.map_append]
  rfl

theorem ofText_of_isPlain {segment : String} (h : IsPlain segment) :
    ofText segment = [segment] := by
  rw [ofText, cut_of_not_mem h, List.map_singleton, String.ofList_toList]

/-- The path of the root model itself. -/
def isRoot : Path → Bool
  | [] | [""] => true
  | _ => false

theorem isRoot_ofText_iff (s : String) : (ofText s).isRoot = true ↔ s = "" := by
  constructor
  · intro h
    unfold isRoot at h
    split at h
    · next hnil => exact absurd hnil (ofText_ne_nil s)
    · next hempty => rw [← text_ofText s, hempty]; rfl
    · cases h
  · intro h
    subst h
    rfl

/-! ## List indices -/

/-- Is a segment a list index (`isIndexSegment`)? -/
def isIndex (segment : String) : Bool :=
  let ds := segment.toList
  ds ≠ [] && ds.all Text.isDigit

/-- The path without its list indices (`stripIndexSegments`). -/
def strip (p : Path) : Path := p.filter fun s => !isIndex s

theorem isPlain_of_isIndex {segment : String} (h : isIndex segment = true) : IsPlain segment := by
  have hdigits : segment.toList ≠ [] ∧ ∀ c ∈ segment.toList, Text.isDigit c = true := by
    simpa [isIndex] using h
  intro hpoint
  exact absurd (hdigits.2 '.' hpoint) (by decide)

theorem strip_append (p q : Path) : strip (p ++ q) = strip p ++ strip q := by
  simp [strip]

theorem strip_strip (p : Path) : strip (strip p) = strip p := by
  simp [strip]

/-- The path of the root holds no list index. -/
theorem isRoot_strip {p : Path} (h : p.isRoot = true) : isRoot (strip p) = true := by
  unfold isRoot at h
  split at h
  · rfl
  · rfl
  · cases h

theorem isIndex_of_isRoot {p : Path} {name : String} (h : p.isRoot = true)
    (hname : name ∈ p.head?) : isIndex name = false := by
  unfold isRoot at h
  split at h
  · cases hname
  · cases hname
    rfl
  · cases h

/-! ## Problems -/

inductive Problem where
  | empty
  | operator (segment : String)
  | control
  | reserved (segment : String)
  /-- The path stops at a list index, which names no field. -/
  | atIndex
deriving DecidableEq

def Problem.reason : Problem → String
  | .empty => "empty path segment"
  | .operator segment => "segment '" ++ segment ++ "' starts with '$'"
  | .control => "contains control characters"
  | .reserved segment => "segment '" ++ segment ++ "' is a reserved property name"
  | .atIndex => "path ends in a list index"

/-- Names that reach the machinery of a record and never a field, in any letter case
(`DANGEROUS_PROPERTIES`). -/
def reservedNames : List String := ["__proto__", "constructor", "prototype"]

/-- What is wrong with one segment (`describeSegmentProblem`). -/
def segmentProblem? (segment : String) : Option Problem :=
  if segment.toList = [] then some .empty
  else if segment.toList.head? = some '$' then some (.operator segment)
  else if segment.toList.any (·.toNat < 0x20) then some .control
  else if reservedNames.any (Text.spells · segment) then some (.reserved segment)
  else none

/-- The first problem of a path (`describeFieldPathProblem`). -/
def problem? (p : Path) : Option Problem := p.findSome? segmentProblem?

/-- A segment that may be looked up. -/
def IsSafe (segment : String) : Prop := segmentProblem? segment = none

/-- A safe segment begins with a character that is no dollar sign. -/
theorem IsSafe.head {segment : String} (h : IsSafe segment) :
    segment.toList ≠ [] ∧ segment.toList.head? ≠ some '$' := by
  simp only [IsSafe, segmentProblem?] at h
  split at h
  · simp at h
  · split at h
    · simp at h
    · exact ⟨by assumption, by assumption⟩

theorem IsSafe.ne_empty {segment : String} (h : IsSafe segment) : segment ≠ "" := by
  rintro rfl
  exact h.head.1 rfl

theorem text_cons_ne_empty {segment : String} (h : segment ≠ "") (p : Path) :
    text (segment :: p) ≠ "" := by
  intro htext
  have hchars := congrArg String.toList htext
  cases p with
  | nil => exact h (by simpa [text] using hchars)
  | cons next p => simp [text] at hchars

theorem text_ne_empty {p : Path} (hne : p ≠ []) (hsafe : ∀ segment ∈ p, IsSafe segment) :
    p.text ≠ "" := by
  obtain ⟨segment, p, rfl⟩ := List.exists_cons_of_ne_nil hne
  exact text_cons_ne_empty (hsafe segment List.mem_cons_self).ne_empty p

/-- The text of a path begins like its first segment, if that is not empty. -/
theorem head?_text_cons {segment : String} (h : segment.toList ≠ []) (p : Path) :
    (text (segment :: p)).toList.head? = segment.toList.head? := by
  obtain ⟨c, cs, hchars⟩ := List.exists_cons_of_ne_nil h
  cases p <;> simp [text, hchars]

theorem text_append_ne_empty {segment : String} (h : segment ≠ "") (p q : Path) :
    text (p ++ segment :: q) ≠ "" := by
  cases p with
  | nil => exact text_cons_ne_empty h q
  | cons first p =>
    intro htext
    have hchars := congrArg String.toList htext
    cases p <;> simp [text] at hchars

theorem problem?_eq_none_iff (p : Path) : p.problem? = none ↔ ∀ s ∈ p, IsSafe s := by
  simp [problem?, IsSafe]

/-- A run of digits names no operator and nothing reserved. -/
theorem isSafe_of_isIndex {segment : String} (h : isIndex segment = true) : IsSafe segment := by
  have hdigits : segment.toList ≠ [] ∧ ∀ c ∈ segment.toList, Text.isDigit c = true := by
    simpa [isIndex] using h
  obtain ⟨hne, hdigits⟩ := hdigits
  obtain ⟨first, rest, hchars⟩ := List.exists_cons_of_ne_nil hne
  have hfirst : Text.isDigit first = true := hdigits first (by simp [hchars])
  have hoperator : segment.toList.head? ≠ some '$' := by
    rw [hchars]
    intro hdollar
    cases hdollar
    revert hfirst
    decide
  have hcontrol : segment.toList.any (·.toNat < 0x20) = false := by
    rw [List.any_eq_false]
    intro c hc
    have hdigit := hdigits c hc
    simp only [Text.isDigit, Bool.and_eq_true, decide_eq_true_eq, Char.le_def] at hdigit
    have hzero : '0'.toNat ≤ c.toNat := hdigit.1
    simp only [decide_eq_true_eq]
    have : '0'.toNat = 48 := rfl
    omega
  have hreserved : reservedNames.any (Text.spells · segment) = false := by
    have hwords : ∀ word ∈ reservedNames, word.toList.head?.any Text.isDigit = false := by
      decide +kernel
    rw [List.any_eq_false]
    intro word hword hspells
    rw [Text.spells_iff, hchars, List.map_cons, Text.toLower_of_isDigit hfirst] at hspells
    have hdigit := hwords word hword
    rw [← hspells] at hdigit
    simp [hfirst] at hdigit
  unfold IsSafe segmentProblem?
  rw [if_neg hne, if_neg hoperator, hcontrol, hreserved]
  rfl

/-- A path leads away from the root if it ends in names that may be looked up. -/
theorem isRoot_append {p q : Path} (hq : q ≠ []) (hsafe : ∀ s ∈ q, IsSafe s) :
    isRoot (p ++ q) = false := by
  unfold isRoot
  split
  · next h => exact absurd (List.append_eq_nil_iff.mp h).2 hq
  · next h =>
    obtain ⟨_, rfl⟩ | ⟨_, rfl⟩ := List.append_eq_singleton_iff.mp h
    · exact absurd rfl (hsafe "" List.mem_cons_self).ne_empty
    · exact absurd rfl hq
  · rfl

/-- A path that may be looked up leads away from the root. -/
theorem isRoot_eq_false {p : Path} (hp : p ≠ []) (hsafe : ∀ s ∈ p, IsSafe s) :
    p.isRoot = false := isRoot_append (p := []) hp hsafe

example : problem? (ofText "tracks..name") = some .empty := by decide +kernel
example : problem? (ofText "user.Constructor") = some (.reserved "Constructor") := by
  decide +kernel
example : (strip (ofText "tracks.0.playlists.1.name")).text = "tracks.playlists.name" := by
  decide +kernel

end Path
end RowFilter
