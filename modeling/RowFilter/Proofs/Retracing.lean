import RowFilter.Proofs.Placeholders
import RowFilter.Proofs.Resumption
import RowFilter.Proofs.Stripped

/-!
# Traversals without list indices

A document that is accepted without a translator, and the document without its list indices,
are traversed side by side. At every turn the same number of tasks is pending and the same frames
are open; the open keys differ by list indices only, and so do the steps that a key takes. What
the host is asked about goes without list indices anyway, and so do the paths of the predicate.
-/

namespace RowFilter

/-! ## Results after the same events -/

namespace Traced
variable {α β γ δ : Type} {R : α → β → Prop} {S : γ → δ → Prop} {x : Traced α} {y : Traced β}

/-- Wherever the first comes to something, the second comes to something that is related, after
the same events. -/
def Repeats (R : α → β → Prop) (x : Traced α) (y : Traced β) : Prop :=
  ∀ a, x.result = .ok a → ∃ b, y.result = .ok b ∧ R a b ∧ y.events = x.events

theorem repeats_pure {a : α} {b : β} (h : R a b) : Repeats R (pure a) (pure b) := by
  intro c hc
  cases hc
  exact ⟨b, rfl, h, rfl⟩

theorem repeats_refuse {cause : Cause} {dataKey : Path} {filter : Value} {op : Option String} :
    Repeats R (refuse cause dataKey filter op) y :=
  fun a h => absurd h (refuse_result_ne_ok cause dataKey filter op a)

theorem repeats_bind {k : α → Traced γ} {l : β → Traced δ} (hx : Repeats R x y)
    (h : ∀ a b, x.result = .ok a → R a b → Repeats S (k a) (l b)) :
    Repeats S (x >>= k) (y >>= l) := by
  intro c hc
  obtain ⟨a, ha, hc⟩ := bind_result_eq_ok_iff.mp hc
  obtain ⟨b, hb, hab, hevents⟩ := hx a ha
  obtain ⟨d, hd, hcd, hevents'⟩ := h a b ha hab c hc
  refine ⟨d, bind_result_eq_ok_iff.mpr ⟨b, hb, hd⟩, hcd, ?_⟩
  rw [bind_eq, bind_eq, bind_of_ok l hb, bind_of_ok k ha, hevents, hevents']

theorem repeats_self {R : α → α → Prop} (h : ∀ a, R a a) (x : Traced α) : Repeats R x x :=
  fun a ha => ⟨a, ha, h a, rfl⟩

theorem repeats_ofExcept {r : Except Fault α} {r' : Except Fault β}
    (h : ∀ a, r = .ok a → ∃ b, r' = .ok b ∧ R a b) :
    Repeats R (Traced.ofExcept r) (Traced.ofExcept r') := by
  intro a ha
  obtain ⟨b, hb, hab⟩ := h a ha
  exact ⟨b, hb, hab, rfl⟩

end Traced

/-! ## States without list indices -/

namespace OpenKey

def stripped (key : OpenKey) : OpenKey := ⟨key.external.strip, key.internal.strip⟩

theorem join_stripped (keys : List OpenKey) : join (keys.map stripped) = (join keys).stripped := by
  induction keys with
  | nil => rfl
  | cons key keys ih =>
    simp only [join, stripped, List.map_cons, List.flatMap_cons, Path.strip_append,
      OpenKey.mk.injEq] at ih ⊢
    exact ⟨by rw [ih.1], by rw [ih.2]⟩

/-- Called inside what it is called outside, by segments that were cut from a text. -/
structure Untranslated (key : OpenKey) : Prop where
  same : key.internal = key.external
  plain : ∀ segment ∈ key.external, Path.IsPlain segment

theorem untranslated_join {keys : List OpenKey} (h : ∀ key ∈ keys, key.Untranslated) :
    (join keys).Untranslated := by
  induction keys with
  | nil => exact ⟨rfl, by simp [join]⟩
  | cons key keys ih =>
    obtain ⟨hkey, hkeys⟩ := List.forall_mem_cons.mp h
    obtain ⟨hsame, hplain⟩ := ih hkeys
    simp only [join] at hsame hplain
    constructor
    · simp only [join, List.flatMap_cons, hkey.same, hsame]
    · simp only [join, List.flatMap_cons]
      exact List.forall_mem_append.mpr ⟨hkey.plain, hplain⟩

end OpenKey

namespace Task

def stripped : Task → Task
  | .fragment f => .fragment f.stripped
  | task => task

/-- A fragment to read has keys that stay apart. -/
def Apart : Task → Prop
  | .fragment f => f.Apart
  | _ => True

theorem apart_of_mem_singleton {f : Fragment} (h : f.Apart) :
    ∀ task ∈ [Task.fragment f], task.Apart := by
  simpa [Apart] using h

end Task

namespace TraversalState
variable {s s' t : TraversalState}

def stripped (s : TraversalState) : TraversalState :=
  ⟨s.work.map Task.stripped, s.paths.map OpenKey.stripped, s.scopes.map OpenKey.stripped, s.frames⟩

/-- The second state is the first without list indices. No key of the first was translated, and
the keys that are still to be read stay apart. -/
structure Mirrors (s t : TraversalState) : Prop where
  eq : t = s.stripped
  keys : ∀ key ∈ s.paths, key.Untranslated
  tasks : ∀ task ∈ s.work, task.Apart

namespace Mirrors
variable (h : Mirrors s t)
include h

theorem openKey_eq : t.openKey = s.openKey.stripped := by
  rw [h.eq]
  unfold openKey stripped
  rw [← List.map_reverse, OpenKey.join_stripped]

theorem strip_internal : t.openKey.internal.strip = s.openKey.internal.strip := by
  rw [h.openKey_eq]
  exact Path.strip_strip _

theorem untranslated : s.openKey.Untranslated :=
  OpenKey.untranslated_join fun key hkey => h.keys key (List.mem_reverse.mp hkey)

theorem hasOpenField_eq : t.hasOpenField = s.hasOpenField := by
  rw [h.eq]
  simp [hasOpenField, stripped]

theorem next {task : Task} {rest : List Task} (hwork : s.work = task :: rest) :
    Mirrors { s with work := rest } { t with work := rest.map Task.stripped } where
  eq := by
    rw [h.eq]
    rfl
  keys := h.keys
  tasks := by
    have htasks := h.tasks
    rw [hwork] at htasks
    exact (List.forall_mem_cons.mp htasks).2

theorem openFrame (frame : Frame) {inside : List Task} (hinside : ∀ task ∈ inside, task.Apart) :
    Mirrors (s.openFrame frame inside) (t.openFrame frame (inside.map Task.stripped)) where
  eq := by
    rw [h.eq]
    simp [TraversalState.openFrame, stripped, Task.stripped]
  keys := h.keys
  tasks := List.forall_mem_append.mpr
    ⟨hinside, List.forall_mem_cons.mpr ⟨trivial, h.tasks⟩⟩

theorem openPath {key : OpenKey} (hkey : key.Untranslated) {inside : List Task}
    (hinside : ∀ task ∈ inside, task.Apart) :
    Mirrors (s.openPath key inside) (t.openPath key.stripped (inside.map Task.stripped)) where
  eq := by
    rw [h.eq]
    simp [TraversalState.openPath, stripped, Task.stripped]
  keys := List.forall_mem_cons.mpr ⟨hkey, h.keys⟩
  tasks := List.forall_mem_append.mpr
    ⟨hinside, List.forall_mem_cons.mpr ⟨trivial, h.tasks⟩⟩

theorem openScope : Mirrors s.openScope t.openScope where
  eq := by
    rw [h.eq]
    simp [TraversalState.openScope, stripped, Task.stripped, ← OpenKey.join_stripped,
      List.map_take, List.map_reverse]
  keys := h.keys
  tasks := List.forall_mem_cons.mpr ⟨trivial, h.tasks⟩

theorem closePath : Mirrors { s with paths := s.paths.tail } { t with paths := t.paths.tail } where
  eq := by
    rw [h.eq]
    simp [stripped, List.map_tail]
  keys := fun key hkey => h.keys key (List.mem_of_mem_tail hkey)
  tasks := h.tasks

theorem closeScope :
    Mirrors { s with scopes := s.scopes.tail } { t with scopes := t.scopes.tail } where
  eq := by
    rw [h.eq]
    simp [stripped, List.map_tail]
  keys := h.keys
  tasks := h.tasks

theorem exists_gather {p : Predicate} (hs : s.gather p = .ok s') :
    ∃ t', t.gather p = .ok t' ∧ Mirrors s' t' := by
  obtain ⟨rfl, hkeys, htasks⟩ := h
  obtain ⟨frame, outer, hframes, rfl⟩ := gather_eq_ok_iff.mp hs
  exact ⟨_, gather_eq_ok_iff.mpr ⟨frame, outer, hframes, rfl⟩, rfl, hkeys, htasks⟩

theorem exists_closeFrame (hs : s.closeFrame = .ok s') :
    ∃ t', t.closeFrame = .ok t' ∧ Mirrors s' t' := by
  obtain ⟨rfl, hkeys, htasks⟩ := h
  obtain ⟨frame, outer, hframes, hs⟩ := closeFrame_eq_ok_iff.mp hs
  have hrest : Mirrors { s with frames := outer } { s.stripped with frames := outer } :=
    ⟨rfl, hkeys, htasks⟩
  obtain ⟨t', ht', hmirrors⟩ := hrest.exists_gather hs
  exact ⟨t', closeFrame_eq_ok_iff.mpr ⟨frame, outer, hframes, ht'⟩, hmirrors⟩

theorem result_eq : t.result = s.result := by
  rw [h.eq]
  rfl

end Mirrors
end TraversalState

/-! ## One task -/

namespace Traversal
open TraversalState Traced

variable {setup : Setup} {s t : TraversalState} {key inner : Path} {value : Value}
  {steps : List Step}

/-- What an operator comes to does not depend on how the document writes the path. -/
theorem evaluate_of_dataKey {target : Field} {token : String} {dataKey path : Path}
    {p : Predicate} (hp : target.evaluate token value dataKey path = .ok p) (dataKey' : Path) :
    target.evaluate token value dataKey' path = .ok p := by
  have hunder : target.evaluate token value dataKey' ([] ++ path) = .ok (p.under []) :=
    Field.evaluate_under hp dataKey'
  rcases Field.evaluate_eq_ok hp with ⟨field, c, _, _, rfl | rfl⟩ | ⟨relation, _, rfl | rfl⟩ <;>
    exact hunder

section Logic
variable (h : Mirrors s t)
include h

theorem combine_stripped (combinator : Combinator) (op op' : String) (hvalue : value.ListApart) :
    Repeats Mirrors (combine s combinator op value)
      (combine t combinator op' value.strippedList) := by
  unfold combine
  cases hfs : value.fragments? with
  | none => exact repeats_refuse
  | some fs =>
    obtain ⟨hstripped, hapart⟩ := Fragment.fragments?_stripped hfs hvalue
    rw [hstripped]
    have hinside : ∀ task ∈ fs.map Task.fragment, task.Apart := List.forall_mem_map.mpr hapart
    have hframe := h.openFrame ⟨combinator, []⟩ hinside
    rw [List.map_map] at hframe
    refine repeats_pure ?_
    rw [List.map_map]
    exact hframe

theorem combineNone_stripped (hvalue : value.ListApart) :
    Repeats Mirrors (combineNone s value) (combineNone t value.strippedList) := by
  unfold combineNone
  cases hfs : value.fragments? with
  | none => exact repeats_refuse
  | some fs =>
    obtain ⟨hstripped, _⟩ := Fragment.fragments?_stripped hfs hvalue
    rw [hstripped, ← Fragment.anyOf_stripped]
    have hinside := Task.apart_of_mem_singleton (Fragment.anyOf_apart hvalue)
    exact repeats_pure (h.openFrame ⟨.not, []⟩ hinside)

theorem negate_stripped (hvalue : value.KeysApart) :
    Repeats Mirrors (negate s value) (negate t value.stripped) := by
  unfold negate
  cases hf : value.mapping? with
  | none => exact repeats_refuse
  | some f =>
    rw [Fragment.mapping?_stripped hf hvalue]
    have hinside := Task.apart_of_mem_singleton (Fragment.apart_of_mapping? hf hvalue).2
    exact repeats_pure (h.openFrame ⟨.not, []⟩ hinside)

/-- Without list indices the open keys lead to the same field. -/
theorem openField?_stripped (hnames : setup.schema.NamesNoIndex) :
    Repeats (fun target target' => ∀ f, target = some f → target' = some f)
      (openField? setup s) (openField? setup t) := by
  have hsteps : Repeats (fun steps steps' => steps' = steps.filter (·.field.isSome))
      (resolve setup s.openKey.internal s.openKey.external)
      (resolve setup t.openKey.internal t.openKey.external) := by
    refine repeats_ofExcept fun steps hsteps => ⟨_, ?_, rfl⟩
    have hresolve := ok_of_mapError hsteps
    have hstrip := Schema.resolve_strip ((hnames.indexFree setup.root).head_of_resolve hresolve)
      hresolve
    unfold Schema.locate
    rw [h.openKey_eq]
    show (setup.schema.resolve setup.root s.openKey.internal.strip).mapError _ = _
    rw [hstrip]
    rfl
  unfold openField?
  refine repeats_bind hsteps ?_
  intro steps steps' _ hfilter
  subst hfilter
  refine repeats_pure ?_
  intro f hleaf
  exact Schema.leaf?_filter hleaf

theorem matchElement_stripped (hnames : setup.schema.NamesNoIndex) (hvalue : value.KeysApart) :
    Repeats Mirrors (matchElement setup s value) (matchElement setup t value.stripped) := by
  unfold matchElement
  rw [h.hasOpenField_eq, h.strip_internal]
  cases hf : value.mapping? with
  | none =>
    cases s.hasOpenField <;> exact repeats_refuse
  | some f =>
    rw [Fragment.mapping?_stripped hf hvalue]
    cases s.hasOpenField with
    | false => exact repeats_refuse
    | true =>
      refine repeats_bind (openField?_stripped h hnames) ?_
      intro target target' _ htarget
      rcases target with _ | _ | relation
      · exact repeats_refuse
      · exact repeats_refuse
      · rw [htarget _ rfl]
        refine repeats_bind (repeats_self (fun _ => rfl) _) ?_
        intro conditions _ _ hconditions
        subst hconditions
        refine repeats_bind (repeats_self (fun _ => rfl) _) ?_
        intro _ _ _ _
        have hinside := Task.apart_of_mem_singleton (Fragment.apart_of_mapping? hf hvalue).2
        exact repeats_pure (h.openScope.openFrame _ hinside)

theorem operate_stripped (hnames : setup.schema.NamesNoIndex) (token : String) :
    Repeats Mirrors (operate setup s token value) (operate setup t token value) := by
  unfold operate
  dsimp only
  rw [h.strip_internal]
  split
  · exact repeats_refuse
  · refine repeats_bind (openField?_stripped h hnames) ?_
    intro target target' _ htarget
    cases target with
    | none => exact repeats_refuse
    | some f =>
      rw [htarget f rfl]
      have hevaluate : Repeats Eq
          (Traced.ofExcept (f.evaluate token value s.openKey.external s.openKey.internal.strip))
          (Traced.ofExcept (f.evaluate token value t.openKey.external s.openKey.internal.strip)) :=
        repeats_ofExcept fun p hp => ⟨p, evaluate_of_dataKey hp _, rfl⟩
      refine repeats_bind hevaluate ?_
      intro p _ _ hp
      subst hp
      exact repeats_ofExcept fun s' hs' => h.exists_gather hs'

end Logic

/-- Without a translator a key is called inside what it is called outside. -/
theorem Passes.inner_eq (hpasses : Passes setup s key inner steps)
    (htranslator : setup.policies.translator = none) (hkey : s.openKey.Untranslated) :
    inner = key := by
  have hplain : ∀ segment ∈ s.openKey.external ++ key, Path.IsPlain segment :=
    List.forall_mem_append.mpr ⟨hkey.plain, hpasses.plain⟩
  have hsame : (innerKey setup key (s.openKey.external ++ key) .null).result = .ok key :=
    Outline.innerKey_of_untranslated htranslator hpasses.ne_nil hplain
  rw [(innerKey_eq_ok_iff hpasses.ne_nil).mpr hpasses.translated] at hsame
  exact Except.ok.inj hsame

/-- A key that passes its checks does so without list indices, and takes the steps that find a
field. -/
theorem Passes.stripped (h : Mirrors s t) (hnames : setup.schema.NamesNoIndex)
    (htranslator : setup.policies.translator = none) (hpasses : Passes setup s key key steps) :
    Passes setup t key.strip key.strip (steps.filter (·.field.isSome)) := by
  have hroot := Path.isRoot_append (p := s.openKey.internal) hpasses.ne_nil hpasses.safe
  have hne := Schema.strip_ne_nil_of_resolve hnames hroot hpasses.resolved hpasses.ne_nil
  have hsub : ∀ segment ∈ key.strip, segment ∈ key := fun _ hsegment =>
    (List.mem_filter.mp hsegment).1
  have hpath : t.openKey.internal ++ key.strip = (s.openKey.internal ++ key).strip := by
    rw [h.openKey_eq, Path.strip_append]
    rfl
  have hplain : ∀ segment ∈ t.openKey.external ++ key.strip, Path.IsPlain segment := by
    rw [h.openKey_eq]
    refine List.forall_mem_append.mpr ⟨?_, fun segment hs => hpasses.plain segment (hsub _ hs)⟩
    intro segment hsegment
    exact h.untranslated.plain segment (List.mem_filter.mp hsegment).1
  refine ⟨hne, fun segment hs => hpasses.plain segment (hsub _ hs),
    fun segment hs => hpasses.safe segment (hsub _ hs), ?_, ?_, ?_, ?_⟩
  · have hsame : (innerKey setup key.strip (t.openKey.external ++ key.strip) .null).result =
        .ok key.strip := Outline.innerKey_of_untranslated htranslator hne hplain
    exact (innerKey_eq_ok_iff hne).mp hsame
  · rw [hpath, Path.strip_strip]
    exact hpasses.granted
  · rw [h.hasOpenField_eq]
    exact hpasses.closed
  · rw [hpath]
    exact hpasses.resolve_asked (hnames.indexFree setup.root)

/-- A relation that a key stops at, and the entries of its value. -/
theorem openRelation_stripped (h : Mirrors s t) {opened : OpenKey}
    (hopened : opened.Untranslated) {f : Fragment} (hapart : f.Apart) :
    Mirrors
      ((s.openPath opened []).openFrame ⟨.all, []⟩ (f.map fun e => .fragment (.onRelation e)))
      ((t.openPath opened.stripped []).openFrame ⟨.all, []⟩
        (f.stripped.map fun e => .fragment (.onRelation e))) := by
  have hnone : ∀ task ∈ ([] : List Task), task.Apart := by simp
  have hinside : ∀ task ∈ f.map fun e => Task.fragment (.onRelation e), task.Apart := by
    refine List.forall_mem_map.mpr fun e he => ?_
    exact Fragment.onRelation_apart (hapart e he)
  have htasks : (f.map fun e => Task.fragment (.onRelation e)).map Task.stripped =
      f.stripped.map fun e => .fragment (.onRelation e) := by
    rw [Fragment.stripped, List.map_map, List.map_map]
    refine List.map_congr_left fun e _ => ?_
    exact congrArg Task.fragment (Fragment.onRelation_stripped e)
  rw [← htasks]
  exact (h.openPath hopened hnone).openFrame _ hinside

/-- The scope behind a split key, with what is left of the key. -/
theorem openRest_stripped (h : Mirrors s t) {opened : OpenKey} (hopened : opened.Untranslated)
    {rest : Path} (hne : rest ≠ []) (hplain : ∀ segment ∈ rest, Path.IsPlain segment)
    (hsafe : ∀ segment ∈ rest, Path.IsSafe segment) (hvalue : value.KeysApart) :
    Mirrors (s.openPath opened [.fragment (.scope rest.text value)])
      (t.openPath opened.stripped [.fragment (.scope rest.strip.text value.stripped)]) := by
  have hkey := DocumentKey.ofText_of_isSafe hne hsafe
  have hpath : Path.ofText rest.text = rest := Path.ofText_text hne hplain
  have hstripped : strippedKey rest.text = rest.strip.text := by
    rw [strippedKey_of_field hkey (by rwa [hpath]), hpath]
  have hscope : (Fragment.scope rest.text value).stripped =
      .scope rest.strip.text value.stripped := by
    rw [Fragment.scope_stripped (rest.text, value), Value.strippedEntry_of_field hkey, hstripped]
  have hapart : (Fragment.scope rest.text value).Apart :=
    Fragment.scope_apart ((Value.entryApart_of_field hkey).mpr hvalue)
  rw [← hscope]
  exact h.openPath hopened (Task.apart_of_mem_singleton hapart)

/-- What is left of a key is something without list indices too. -/
theorem Passes.strip_drop_ne_nil (hpasses : Passes setup s key key steps)
    (hnames : setup.schema.NamesNoIndex) {width : Nat} (hrest : key.drop width ≠ []) :
    Path.strip (key.drop width) ≠ [] := by
  have hroot := Path.isRoot_append (p := s.openKey.internal) hpasses.ne_nil hpasses.safe
  have hwhole : s.openKey.internal ++ key =
      (s.openKey.internal ++ key.take width) ++ key.drop width := by
    rw [List.append_assoc, List.take_append_drop]
  rw [hwhole] at hroot
  exact Schema.strip_ne_nil_of_resolve hnames hroot (hwhole ▸ hpasses.resolved) hrest

theorem enter_stripped (h : Mirrors s t) (hnames : setup.schema.NamesNoIndex)
    (hpasses : Passes setup s key key steps) (hvalue : value.KeysApart) :
    Repeats Mirrors (enter s ⟨key, key⟩ value (crossings steps))
      (enter t ⟨key.strip, key.strip⟩ value.stripped
        (crossings (steps.filter (·.field.isSome)))) := by
  have hroot := Path.isRoot_append (p := s.openKey.internal) hpasses.ne_nil hpasses.safe
  have hdepth : t.openKey.internal = s.openKey.internal.strip := by
    rw [h.openKey_eq]
    rfl
  unfold enter
  dsimp only
  rw [hdepth]
  cases hnext : (crossings steps).find? (s.openKey.internal.length ≤ ·) with
  | none =>
    have hnone := find?_crossings_filter steps s.openKey.internal.length
    rw [Schema.length_filter_take hnames hroot hpasses.resolved, List.take_left, hnext,
      Option.map_none] at hnone
    rw [hnone, ← Fragment.ofValue_stripped hvalue]
    have hkey : OpenKey.Untranslated ⟨key, key⟩ := ⟨rfl, hpasses.plain⟩
    have hinside := Task.apart_of_mem_singleton (Fragment.ofValue_apart hvalue)
    exact repeats_pure (h.openPath hkey hinside)
  | some next =>
    obtain ⟨next', hnext', htake, hdrop⟩ :=
      Schema.exists_split_strip hnames hroot hpasses.resolved hnext
    rw [hnext']
    dsimp only
    rw [htake, hdrop]
    generalize next - s.openKey.internal.length + 1 = width
    have hopened : OpenKey.Untranslated ⟨key.take width, key.take width⟩ :=
      ⟨rfl, fun segment hs => hpasses.plain segment (List.mem_of_mem_take hs)⟩
    by_cases hrest : key.drop width = []
    · rw [hrest]
      cases hf : value.mapping? with
      | none => exact repeats_refuse
      | some f =>
        rw [Fragment.mapping?_stripped hf hvalue]
        cases f with
        | nil => exact repeats_refuse
        | cons e f =>
          have hapart := (Fragment.apart_of_mapping? hf hvalue).2
          exact repeats_pure (openRelation_stripped h hopened hapart)
    · have hplain : ∀ segment ∈ key.drop width, Path.IsPlain segment :=
        fun segment hs => hpasses.plain segment (List.mem_of_mem_drop hs)
      have hsafe : ∀ segment ∈ key.drop width, Path.IsSafe segment :=
        fun segment hs => hpasses.safe segment (List.mem_of_mem_drop hs)
      have hleft := hpasses.strip_drop_ne_nil hnames hrest
      have hsafe' : ∀ segment ∈ Path.strip (key.drop width), Path.IsSafe segment :=
        fun segment hs => hsafe segment (List.mem_filter.mp hs).1
      rw [if_neg (Path.text_ne_empty hrest hsafe), if_neg (Path.text_ne_empty hleft hsafe')]
      exact repeats_pure (openRest_stripped h hopened hrest hplain hsafe hvalue)

theorem descend_stripped (h : Mirrors s t) (hnames : setup.schema.NamesNoIndex)
    (htranslator : setup.policies.translator = none) {text : String}
    (hkey : DocumentKey.ofText text = .field text) (hvalue : value.KeysApart) :
    Repeats Mirrors (descend setup s text value)
      (descend setup t (strippedKey text) value.stripped) := by
  intro s' hs'
  obtain ⟨inner, steps, hpasses, henter⟩ := descend_eq_ok_iff.mp hs'
  obtain rfl := hpasses.inner_eq htranslator h.untranslated
  have hstripped := hpasses.stripped h hnames htranslator
  have hpath : Path.ofText (strippedKey text) = (Path.ofText text).strip := by
    rw [strippedKey_of_field hkey hpasses.safe, Path.ofText_text hstripped.ne_nil hstripped.plain]
  have hpasses' : Passes setup t (.ofText (strippedKey text)) (Path.ofText text).strip
      (steps.filter (·.field.isSome)) := by
    rw [hpath]
    exact hstripped
  obtain ⟨t', ht', hmirrors, _⟩ := enter_stripped h hnames hpasses hvalue s' henter
  rw [hpasses.descend_eq, hpasses'.descend_eq, hpath]
  refine ⟨t', ht', hmirrors, ?_⟩
  have hquestions : t.openKey.internal ++ (Path.ofText text).strip =
      (s.openKey.internal ++ Path.ofText text).strip := by
    rw [h.openKey_eq, Path.strip_append]
    rfl
  unfold keyQuestions Policies.translate
  rw [htranslator, hquestions, Path.strip_strip]
  rfl

theorem readEntry_stripped (h : Mirrors s t) (hnames : setup.schema.NamesNoIndex)
    (htranslator : setup.policies.translator = none) {e : String × Value}
    (hapart : Value.EntryApart e) :
    Repeats Mirrors (readEntry setup s e.1 e.2)
      (readEntry setup t (Value.strippedEntry e).1 (Value.strippedEntry e).2) := by
  obtain ⟨key, value⟩ := e
  unfold readEntry
  rw [Value.strippedEntry]
  rw [Value.EntryApart] at hapart
  dsimp only
  rw [ofText_strippedKey]
  cases hkey : DocumentKey.ofText key with
  | all =>
    rw [hkey] at hapart
    exact combine_stripped h .all _ _ hapart
  | any =>
    rw [hkey] at hapart
    exact combine_stripped h .any _ _ hapart
  | none =>
    rw [hkey] at hapart
    exact combineNone_stripped h hapart
  | not =>
    rw [hkey] at hapart
    exact negate_stripped h hapart
  | elemMatch =>
    rw [hkey] at hapart
    exact matchElement_stripped h hnames hapart
  | operator token => exact operate_stripped h hnames token
  | field text =>
    rw [hkey] at hapart
    obtain rfl := DocumentKey.eq_of_ofText_field hkey
    exact descend_stripped h hnames htranslator hkey hapart

theorem read_stripped (h : Mirrors s t) (hnames : setup.schema.NamesNoIndex)
    (htranslator : setup.policies.translator = none) {f : Fragment} (hapart : f.Apart) :
    Repeats Mirrors (read setup s f) (read setup t f.stripped) := by
  rcases f with _ | ⟨e, _ | ⟨d, f⟩⟩
  · exact repeats_pure h
  · exact readEntry_stripped h hnames htranslator (hapart e List.mem_cons_self)
  · have hinside : ∀ task ∈ (e :: d :: f).map fun e => Task.fragment [e], task.Apart := by
      refine List.forall_mem_map.mpr fun c hc => ?_
      simpa [Task.Apart, Fragment.Apart] using hapart c hc
    have hframe := h.openFrame ⟨.all, []⟩ hinside
    have htasks : ((e :: d :: f).map fun e => Task.fragment [e]).map Task.stripped =
        (Fragment.stripped (e :: d :: f)).map fun e => Task.fragment [e] := by
      rw [Fragment.stripped, List.map_map, List.map_map]
      rfl
    rw [htasks] at hframe
    exact repeats_pure hframe

theorem perform_stripped (h : Mirrors s t) (hnames : setup.schema.NamesNoIndex)
    (htranslator : setup.policies.translator = none) {task : Task} (hapart : task.Apart) :
    Repeats Mirrors (perform setup s task) (perform setup t task.stripped) := by
  cases task with
  | fragment f => exact read_stripped h hnames htranslator hapart
  | closePath => exact repeats_pure h.closePath
  | closeScope => exact repeats_pure h.closeScope
  | closeFrame => exact repeats_ofExcept fun s' hs' => h.exists_closeFrame hs'

/-! ## Whole runs -/

theorem step_stripped (h : Mirrors s t) (hnames : setup.schema.NamesNoIndex)
    (htranslator : setup.policies.translator = none) {task : Task} {rest : List Task}
    (hwork : s.work = task :: rest) :
    Repeats Mirrors (step setup s task rest)
      (step setup t task.stripped (rest.map Task.stripped)) := by
  have hlength : t.work.length = s.work.length := by
    rw [h.eq]
    exact List.length_map _
  have hlimit : withinLimit setup t = withinLimit setup s := by
    unfold withinLimit
    rw [hlength]
  have hapart : task.Apart := h.tasks task (by rw [hwork]; exact List.mem_cons_self)
  unfold step
  rw [hlimit]
  refine repeats_bind (repeats_self (fun _ => rfl) _) ?_
  intro _ _ _ _
  exact perform_stripped (h.next hwork) hnames htranslator hapart

/-- Side by side the traversals come to the same predicate after the same events. -/
theorem runFrom_stripped (h : Mirrors s t) (hnames : setup.schema.NamesNoIndex)
    (htranslator : setup.policies.translator = none) :
    Repeats Eq (runFrom setup s) (runFrom setup t) := by
  induction hload : s.load using Nat.strongRecOn generalizing s t with
  | ind n ih =>
    cases hwork : s.work with
    | nil =>
      have hdone : t.work = [] := by
        rw [h.eq]
        simp [stripped, hwork]
      rw [runFrom_of_done hwork, runFrom_of_done hdone, h.result_eq]
      exact repeats_self (fun _ => rfl) _
    | cons task rest =>
      have hwork' : t.work = task.stripped :: rest.map Task.stripped := by
        rw [h.eq]
        simp [TraversalState.stripped, hwork]
      rw [runFrom_of_work hwork, runFrom_of_work hwork']
      refine repeats_bind (step_stripped h hnames htranslator hwork) ?_
      intro s' t' hs' hmirrors
      exact ih s'.load (hload ▸ load_step hwork hs') hmirrors rfl

theorem run_stripped (hnames : setup.schema.NamesNoIndex)
    (htranslator : setup.policies.translator = none) {f : Fragment} (hapart : f.Apart) :
    Repeats Eq (run setup f) (run setup f.stripped) := by
  have hstart : Mirrors (.start f) (.start f.stripped) :=
    ⟨rfl, by simp [start], Task.apart_of_mem_singleton hapart⟩
  rw [run_eq_runFrom, run_eq_runFrom]
  exact runFrom_stripped hstart hnames htranslator

end Traversal

/-! ## Compiled documents -/

namespace Setup
open Traced

variable {setup : Setup} {document : Value}

theorem compileMapping_stripped (hnames : setup.schema.NamesNoIndex)
    (htranslator : setup.policies.translator = none) (hapart : document.KeysApart) :
    Repeats Eq (setup.compileMapping document) (setup.compileMapping document.stripped) := by
  unfold compileMapping
  cases hf : document.mapping? with
  | none => exact repeats_refuse
  | some f =>
    rw [Fragment.mapping?_stripped hf hapart]
    have hfragment := (Fragment.apart_of_mapping? hf hapart).2
    refine repeats_bind (Traversal.run_stripped hnames htranslator hfragment) ?_
    intro p _ _ hp
    subst hp
    exact repeats_self (fun _ => rfl) _

/-- The reports of a compile do not say how the document writes its keys either. -/
theorem compile_stripped (hnames : setup.schema.NamesNoIndex)
    (htranslator : setup.policies.translator = none) (hapart : document.KeysApart) :
    Repeats Eq (setup.compile document) (setup.compile document.stripped) := by
  cases hf : document.mapping? with
  | none =>
    rw [Fragment.stripped_of_mapping?_eq_none hf]
    exact repeats_self (fun _ => rfl) _
  | some f =>
    unfold compile
    rw [Value.isMissing_of_mapping? hf,
      Value.isMissing_of_mapping? (Fragment.mapping?_stripped hf hapart)]
    refine repeats_bind (repeats_self (fun _ => rfl) _) ?_
    intro _ _ _ _
    refine repeats_bind ?_ fun p _ _ hp => repeats_pure (congrArg some hp)
    intro p hp
    rw [reportingRejection_result] at hp
    obtain ⟨q, hq, hpq, hevents⟩ := compileMapping_stripped hnames htranslator hapart p hp
    rw [reportingRejection_of_ok hp, reportingRejection_of_ok hq]
    exact ⟨q, hq, hpq, hevents⟩

end Setup

section Compiled
variable {definition : Value} {catalog : Catalog} {root : String} {document : Value}
  {options : OptionsArgument} {policies : Policies} {r : Option Predicate}

/-- A document that compiles without a translator compiles without its list indices as well, to
the same predicate, and the host is asked the same questions and told the same, in the same
order. Only the keys of each mapping have to stay apart. -/
theorem compile_without_indices (hdefine : Definition.define definition = .ok catalog)
    (hpolicies : Policies.resolve options = .ok policies)
    (htranslator : policies.translator = none) (hapart : document.KeysApart)
    (h : (compile catalog.schema root document options).result = .ok r) :
    compile catalog.schema root document.stripped options =
      compile catalog.schema root document options := by
  have hnames := Definition.namesNoIndex_of_define hdefine
  rw [compile_of_resolve hpolicies] at h
  rw [compile_of_resolve hpolicies, compile_of_resolve hpolicies]
  have hresult : (Setup.compile ⟨catalog.schema, root, policies⟩ document).result = .ok r :=
    ok_of_mapError h
  obtain ⟨_, hstripped, rfl, hevents⟩ :=
    Setup.compile_stripped hnames htranslator hapart r hresult
  unfold Outcome.ofTraced
  rw [hevents, hstripped, hresult]

end Compiled

namespace Sample

/-- Placeholders behind relations, several in a row, and first in a scope. -/
def legacyDocument : Value := .ofEntries
  [("tracks.0.1.playlists.2.name", .text "x"),
    ("$or", .list [.ofEntries
      [("tracks", .ofEntries [("$elemMatch", .ofEntries [("1.playlists.name", .text "y")])])]])]

def strippedDocument : Value := .ofEntries
  [("tracks.playlists.name", .text "x"),
    ("$or", .list [.ofEntries
      [("tracks", .ofEntries [("$elemMatch", .ofEntries [("playlists.name", .text "y")])])]])]

theorem keysApart_legacyDocument : legacyDocument.KeysApart := by
  have hscope : (Value.ofEntries [("1.playlists.name", .text "y")]).KeysApart :=
    ⟨by simp, trivial, trivial⟩
  have htracks : (Value.ofEntries [("$elemMatch",
      .ofEntries [("1.playlists.name", .text "y")])]).KeysApart :=
    ⟨by simp, hscope, trivial⟩
  exact ⟨by decide, trivial, ⟨⟨by simp, htracks, trivial⟩, trivial⟩, trivial⟩

def guardedOptions : Options := .ofEntries
  [("whitelist", .pathFunction grants), ("nestedConditions", .conditionFunction hideLongTracks)]

/-- A short track on a playlist with the name. -/
def onPlaylist (name : String) : Predicate :=
  .related tracks ["tracks"] (.all [shortTracks,
    .related playlists ["tracks", "playlists"]
      (.test ⟨"name", "Playlist", .scalar .text⟩ ["tracks", "playlists", "name"]
        (.compare .eq (.text name)))])

theorem compile_without_indices_playlists :
    Definition.define definition = .ok catalog ∧
      Policies.resolve (.settings guardedOptions) = .ok (.ofOptions guardedOptions) ∧
      (Policies.ofOptions guardedOptions).translator = none ∧
      legacyDocument.KeysApart ∧
      (compile catalog.schema "Album" legacyDocument (.settings guardedOptions)).result =
        .ok (some (.all [onPlaylist "x", onPlaylist "y"])) ∧
      legacyDocument.stripped = strippedDocument ∧
      compile catalog.schema "Album" strippedDocument (.settings guardedOptions) =
        compile catalog.schema "Album" legacyDocument (.settings guardedOptions) := by
  have hpolicies : Policies.resolve (.settings guardedOptions) =
      .ok (.ofOptions guardedOptions) := rfl
  have htranslator : (Policies.ofOptions guardedOptions).translator = none := rfl
  have hresult : (compile catalog.schema "Album" legacyDocument
      (.settings guardedOptions)).result = .ok (some (.all [onPlaylist "x", onPlaylist "y"])) := rfl
  have hstripped : legacyDocument.stripped = strippedDocument := rfl
  refine ⟨define_definition, hpolicies, htranslator, keysApart_legacyDocument, hresult,
    hstripped, ?_⟩
  rw [← hstripped]
  exact compile_without_indices define_definition hpolicies htranslator
    keysApart_legacyDocument hresult

end Sample
end RowFilter
