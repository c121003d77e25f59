import RowFilter.Proofs.Outline
import RowFilter.Traversal.Bound

/-!
# Traversal and outline

A traversal comes to what the outline of its document comes to: the same predicate or the same
fault, after the same questions and reports. The statement behind it is about any state of the
traversal. A fragment on top of the work list is read as its outline says at the place that the
open keys make, its node is gathered by the innermost frame, and the rest of the work goes on
from there.
-/

namespace RowFilter

namespace TraversalState
variable (s : TraversalState)

/-- Where the next fragment stands. -/
def place : Place := ⟨s.openKey, s.hasOpenField⟩

/-- At most one key is open that no scope contains, and there is a frame to gather nodes. -/
structure Aligned : Prop where
  scopes_le : s.scopes.length ≤ s.paths.length
  paths_le : s.paths.length ≤ s.scopes.length + 1
  framed : s.frames ≠ []

/-- Work that comes before the pending work. -/
def push (tasks : List Task) : TraversalState := { s with work := tasks ++ s.work }

/-- Adds predicates to the innermost frame, in order. -/
def gatherAll (ps : List Predicate) : TraversalState :=
  match s.frames with
  | [] => s
  | frame :: outer =>
    { s with frames := { frame with gathered := ps.reverse ++ frame.gathered } :: outer }

variable {s}

theorem place_push (tasks : List Task) : (s.push tasks).place = s.place := rfl

theorem place_gatherAll (ps : List Predicate) : (s.gatherAll ps).place = s.place := by
  obtain ⟨work, paths, scopes, _ | ⟨frame, outer⟩⟩ := s <;> rfl

theorem gatherAll_push (ps : List Predicate) (tasks : List Task) :
    (s.push tasks).gatherAll ps = (s.gatherAll ps).push tasks := by
  obtain ⟨work, paths, scopes, _ | ⟨frame, outer⟩⟩ := s <;> rfl

theorem gatherAll_nil : s.gatherAll [] = s := by
  obtain ⟨work, paths, scopes, _ | ⟨frame, outer⟩⟩ := s <;> rfl

theorem gatherAll_gatherAll (ps qs : List Predicate) :
    (s.gatherAll ps).gatherAll qs = s.gatherAll (ps ++ qs) := by
  obtain ⟨work, paths, scopes, _ | ⟨frame, outer⟩⟩ := s
  · rfl
  · simp [gatherAll]

namespace Aligned

theorem push (h : s.Aligned) (tasks : List Task) : (s.push tasks).Aligned :=
  ⟨h.scopes_le, h.paths_le, h.framed⟩

theorem gatherAll (h : s.Aligned) (ps : List Predicate) : (s.gatherAll ps).Aligned := by
  obtain ⟨work, paths, scopes, _ | ⟨frame, outer⟩⟩ := s
  · exact h
  · exact ⟨h.scopes_le, h.paths_le, by simp [TraversalState.gatherAll]⟩

theorem gather_eq (h : s.Aligned) (p : Predicate) : s.gather p = .ok (s.gatherAll [p]) := by
  obtain ⟨work, paths, scopes, _ | ⟨frame, outer⟩⟩ := s
  · exact absurd rfl h.framed
  · rfl

end Aligned

/-- Opening a key that no field is open around. -/
theorem place_openPath (h : s.Aligned) (hopen : s.hasOpenField = false) (key : OpenKey) :
    (s.openPath key []).place = s.place.enter key ∧ (s.openPath key []).Aligned := by
  have hle : s.paths.length ≤ s.scopes.length := by simpa [hasOpenField] using hopen
  refine ⟨?_, Nat.le_succ_of_le h.scopes_le, Nat.succ_le_succ hle, h.framed⟩
  have hfield : (s.openPath key []).hasOpenField = true :=
    decide_eq_true (Nat.lt_succ_of_le h.scopes_le)
  rw [place, hfield]
  simp [Place.enter, place, openKey, openPath, OpenKey.join]

/-- Opening a scope at an open field. -/
theorem place_openScope (h : s.Aligned) (hopen : s.hasOpenField = true) :
    s.openScope.place = s.place.inScope ∧ s.openScope.Aligned := by
  have hlt : s.scopes.length < s.paths.length := by simpa [hasOpenField] using hopen
  refine ⟨?_, hlt, Nat.le_succ_of_le h.paths_le, h.framed⟩
  have hclosed : s.openScope.hasOpenField = false := decide_eq_false (Nat.not_lt.mpr h.paths_le)
  rw [place, hclosed]
  rfl

end TraversalState

namespace Traversal
open TraversalState Traced

variable {setup : Setup} {s : TraversalState}

/-! ## Running from any state -/

/-- What a traversal comes to from a state on. -/
def runFrom (setup : Setup) (s : TraversalState) : Traced Predicate := loop setup s.load [] s

theorem loop_past (fuel : Nat) (past : List Event) :
    loop setup fuel past s =
      ⟨past.reverse ++ (loop setup fuel [] s).events, (loop setup fuel [] s).result⟩ := by
  induction fuel generalizing past s with
  | zero => simp [loop]
  | succ fuel ih =>
    simp only [loop]
    split
    · simp
    · next task rest hw =>
      split
      · next events s' hs =>
        rw [ih (events.reverse ++ past), ih (events.reverse ++ [])]
        simp
      · simp

theorem runFrom_of_done (h : s.work = []) : runFrom setup s = Traced.ofExcept s.result := by
  cases hl : s.load <;> simp only [runFrom, hl, loop, h] <;> rfl

theorem runFrom_of_work {task : Task} {rest : List Task} (h : s.work = task :: rest) :
    runFrom setup s = step setup s task rest >>= runFrom setup := by
  have hpos : 0 < s.load := by
    rw [Nat.pos_iff_ne_zero, Ne, load_eq_zero_iff, h]
    simp
  obtain ⟨fuel, hfuel⟩ := Nat.exists_eq_add_of_lt hpos
  rw [Nat.zero_add] at hfuel
  simp only [runFrom, hfuel, loop, h]
  split
  · next events s' hs =>
    have hlt : s'.load < s.load := load_step h (by rw [hs])
    have hsplit : fuel = s'.load + (fuel - s'.load) := by omega
    rw [hs, loop_past, hsplit, loop_of_load_le (Nat.le_refl _)]
    simp [bind_eq, Traced.bind, runFrom]
  · next events fault hs =>
    rw [hs]
    simp [bind_eq, Traced.bind]

theorem run_eq_runFrom (document : Fragment) :
    run setup document = runFrom setup (.start document) := by
  simp [run, runFrom, TraversalState.load, TraversalState.start, Task.load]

/-- Without a limit every pending task is carried out. -/
theorem runFrom_push (hlimit : setup.policies.limit = none) (task : Task) :
    runFrom setup (s.push [task]) = perform setup s task >>= runFrom setup := by
  have hwork : (s.push [task]).work = task :: s.work := rfl
  rw [runFrom_of_work hwork]
  simp only [step, withinLimit, hlimit, bind_assoc]
  rfl

/-! ## Brackets

Whatever a task opens, its closing task closes again, with nothing but nodes gathered between. -/

section Brackets

variable (hlimit : setup.policies.limit = none)
include hlimit

theorem runFrom_openPath (key : OpenKey) (ps : List Predicate) :
    runFrom setup ((s.openPath key []).gatherAll ps) = runFrom setup (s.gatherAll ps) := by
  have h : (s.openPath key []).gatherAll ps =
      TraversalState.push { s.gatherAll ps with paths := key :: s.paths } [.closePath] := by
    obtain ⟨work, paths, scopes, _ | ⟨frame, outer⟩⟩ := s <;> rfl
  rw [h, runFrom_push hlimit]
  obtain ⟨work, paths, scopes, _ | ⟨frame, outer⟩⟩ := s <;> rfl

theorem runFrom_openScope (ps : List Predicate) :
    runFrom setup (s.openScope.gatherAll ps) = runFrom setup (s.gatherAll ps) := by
  have h : s.openScope.gatherAll ps =
      TraversalState.push { s.gatherAll ps with scopes := s.openScope.scopes } [.closeScope] := by
    obtain ⟨work, paths, scopes, _ | ⟨frame, outer⟩⟩ := s <;> rfl
  rw [h, runFrom_push hlimit]
  obtain ⟨work, paths, scopes, _ | ⟨frame, outer⟩⟩ := s <;> rfl

theorem runFrom_openFrame (hs : s.Aligned) (frame : Frame) (ps : List Predicate) :
    runFrom setup ((s.openFrame frame []).gatherAll ps) = runFrom setup
      (s.gatherAll [Frame.predicate ⟨frame.combinator, ps.reverse ++ frame.gathered⟩]) := by
  have h : (s.openFrame frame []).gatherAll ps = TraversalState.push
      { s with frames := ⟨frame.combinator, ps.reverse ++ frame.gathered⟩ :: s.frames }
        [.closeFrame] := rfl
  rw [h, runFrom_push hlimit]
  simp only [perform, closeFrame]
  rw [show ({ s with frames := s.frames } : TraversalState) = s from rfl, hs.gather_eq]
  rfl

end Brackets

/-! ## Fragments -/

/-- Whenever the fragment is next at the place, it is read as `x`, its node is gathered, and the
rest of the work goes on. -/
def ReadAs (setup : Setup) (place : Place) (f : Fragment) (x : Traced Outline) : Prop :=
  ∀ s : TraversalState, s.Aligned → s.place = place →
    runFrom setup (s.push [.fragment f]) =
      x >>= fun o => runFrom setup (s.gatherAll o.node?.toList)

theorem runFrom_push_fragments {α : Type} {as : List α} {fragment : α → Fragment}
    {read : α → Traced Outline} (h : ∀ a ∈ as, ReadAs setup s.place (fragment a) (read a))
    (hs : s.Aligned) :
    runFrom setup (s.push (as.map fun a => .fragment (fragment a))) =
      as.mapM read >>= fun os => runFrom setup (s.gatherAll (Outline.nodes os)) := by
  induction as generalizing s with
  | nil => simp [Outline.nodes, gatherAll_nil, TraversalState.push]
  | cons a as ih =>
    have hpush : s.push ((a :: as).map fun a => .fragment (fragment a)) =
        (s.push (as.map fun a => .fragment (fragment a))).push [.fragment (fragment a)] := rfl
    rw [hpush, h a List.mem_cons_self _ (hs.push _) (place_push _)]
    simp only [List.mapM_cons, bind_assoc, pure_bind, Outline.nodes]
    congr 1
    funext o
    rw [gatherAll_push, ih _ (hs.gatherAll _)]
    · simp only [gatherAll_gatherAll]
    · rw [place_gatherAll]
      exact fun a ha => h a (List.mem_cons_of_mem _ ha)

section Reading

variable (hlimit : setup.policies.limit = none) {value : Value}
include hlimit

/-- A frame gathers the nodes of the fragments inside it, and its predicate goes further out. -/
theorem runFrom_openFrame_fragments {α : Type} {as : List α} {fragment : α → Fragment}
    {read : α → Traced Outline} (frame : Frame)
    (h : ∀ a ∈ as, ReadAs setup s.place (fragment a) (read a)) (hs : s.Aligned) :
    runFrom setup (s.openFrame frame (as.map fun a => .fragment (fragment a))) =
      as.mapM read >>= fun os => runFrom setup (s.gatherAll
        [Frame.predicate ⟨frame.combinator, (Outline.nodes os).reverse ++ frame.gathered⟩]) := by
  have hpush : s.openFrame frame (as.map fun a => .fragment (fragment a)) =
      (s.openFrame frame []).push (as.map fun a => .fragment (fragment a)) := by
    simp [openFrame, TraversalState.push]
  have hframe : (s.openFrame frame []).Aligned := ⟨hs.scopes_le, hs.paths_le, List.cons_ne_nil _ _⟩
  rw [hpush, runFrom_push_fragments (s := s.openFrame frame []) h hframe]
  simp only [runFrom_openFrame hlimit hs]

theorem runFrom_openFrame_fragment {f : Fragment} {x : Traced Outline} (frame : Frame)
    (h : ReadAs setup s.place f x) (hs : s.Aligned) :
    runFrom setup (s.openFrame frame [.fragment f]) = x >>= fun o => runFrom setup (s.gatherAll
      [Frame.predicate ⟨frame.combinator, o.node?.toList.reverse ++ frame.gathered⟩]) := by
  have hread : ∀ a ∈ [()], ReadAs setup s.place ((fun _ => f) a) ((fun _ => x) a) :=
    fun _ _ => h
  have := runFrom_openFrame_fragments hlimit frame hread hs
  simpa [Outline.nodes] using this

theorem readAs_ofFragment {f : Fragment} {place : Place}
    (h : ∀ e ∈ f, ReadAs setup place [e] (Outline.ofEntry setup e place)) :
    ReadAs setup place f (Outline.ofFragment setup f place) := by
  rintro s hs rfl
  rcases f with _ | ⟨e, _ | ⟨d, rest⟩⟩
  · rw [runFrom_push hlimit]
    simp [perform, read, Outline.ofFragment, Outline.ofEntries, Outline.joined, Outline.node?,
      gatherAll_nil]
  · rw [h e List.mem_cons_self s hs rfl]
    simp [Outline.ofFragment, Outline.ofEntries, Outline.joined]
  · rw [runFrom_push hlimit]
    simp only [perform, read, pure_bind]
    rw [runFrom_openFrame_fragments hlimit _ h hs]
    simp [Outline.ofFragment, Outline.ofEntries_eq_mapM, Outline.joined, Outline.node?,
      Frame.predicate]

/-! ## Logic -/

theorem combine_runFrom {combinator : Combinator} {op : String} (joined : List Outline → Outline)
    (hjoined : ∀ os, (joined os).node?.toList =
      [Frame.predicate ⟨combinator, (Outline.nodes os).reverse⟩])
    (h : ∀ fs, value.fragments? = some fs → ∀ f ∈ fs,
      ReadAs setup s.place f (Outline.ofFragment setup f s.place)) (hs : s.Aligned) :
    (combine s combinator op value >>= runFrom setup) =
      (do return joined (← Outline.ofList setup op value s.place)) >>= fun o =>
        runFrom setup (s.gatherAll o.node?.toList) := by
  simp only [combine]
  split
  · next fs hfs =>
    rw [pure_bind, runFrom_openFrame_fragments hlimit _ (h fs hfs) hs,
      Outline.ofList_of_fragments? hfs]
    simp [hjoined]
  · next hfs =>
    rw [Outline.ofList_of_fragments?_eq_none hfs]
    rfl

theorem readAs_anyOf {place : Place} {fs : List Fragment} (hfs : value.fragments? = some fs)
    (h : ∀ fs, value.fragments? = some fs → ∀ f ∈ fs,
      ReadAs setup place f (Outline.ofFragment setup f place)) (op : String) :
    ReadAs setup place (.anyOf value)
      (do return .any (← Outline.ofList setup op value place)) := by
  rintro s hs rfl
  have hkey : DocumentKey.ofText "$or" = .any := by decide +kernel
  rw [runFrom_push hlimit]
  simp only [perform, read, Fragment.anyOf, readEntry, hkey]
  rw [combine_runFrom hlimit .any (fun os => by simp [Outline.node?, Frame.predicate])
    h hs]
  simp only [Outline.ofList_of_fragments? hfs]

theorem combineNone_runFrom
    (h : ∀ fs, value.fragments? = some fs → ∀ f ∈ fs,
      ReadAs setup s.place f (Outline.ofFragment setup f s.place)) (hs : s.Aligned) :
    (combineNone s value >>= runFrom setup) =
      (do return .not (.any (← Outline.ofList setup "$nor" value s.place)) : Traced Outline) >>=
        fun o => runFrom setup (s.gatherAll o.node?.toList) := by
  simp only [combineNone]
  split
  · next fs hfs =>
    rw [pure_bind, runFrom_openFrame_fragment hlimit _ (readAs_anyOf hlimit hfs h "$nor") hs]
    simp [Outline.node?, Frame.predicate]
  · next hfs =>
    rw [Outline.ofList_of_fragments?_eq_none hfs]
    rfl

theorem negate_runFrom {refuse : Place → Traced Outline}
    (hrefuse : refuse = fun place =>
      Traced.refuse .logicalObject place.key.external value (some "$not"))
    (h : ∀ f, value.mapping? = some f →
      ReadAs setup s.place f (Outline.ofFragment setup f s.place)) (hs : s.Aligned) :
    (negate s value >>= runFrom setup) =
      (do return .not (← Outline.ofValue setup refuse value s.place) : Traced Outline) >>=
        fun o => runFrom setup (s.gatherAll o.node?.toList) := by
  simp only [negate]
  split
  · next f hf =>
    rw [pure_bind, runFrom_openFrame_fragment hlimit _ (h f hf) hs,
      Outline.ofValue_of_mapping? hf]
    simp only [bind_assoc, pure_bind, Outline.node?]
    congr 1
    funext o
    cases o.node? <;> simp [Frame.predicate]
  · next hf =>
    rw [Outline.ofValue_of_mapping?_eq_none hf, hrefuse]
    rfl

/-! ## Operators and scopes -/

omit hlimit in
theorem operate_runFrom (token : String) (hs : s.Aligned) :
    (operate setup s token value >>= runFrom setup) =
      Outline.ofOperator setup token value s.place >>= fun o =>
        runFrom setup (s.gatherAll o.node?.toList) := by
  simp only [operate, Outline.ofOperator]
  cases FieldOperator.ofToken? token with
  | none => rfl
  | some op =>
    simp only [bind_assoc]
    refine bind_congr_of_ok fun target _ => ?_
    cases target with
    | none => rfl
    | some target =>
      simp only [bind_assoc, pure_bind]
      refine bind_congr_of_ok fun p _ => ?_
      rw [hs.gather_eq]
      rfl

theorem matchElement_runFrom {body : Place → Traced Outline} {f : Fragment}
    (hopen : s.hasOpenField = true) (hf : value.mapping? = some f)
    (h : ReadAs setup s.place.inScope f (body s.place.inScope)) (hs : s.Aligned) :
    (matchElement setup s value >>= runFrom setup) =
      Outline.ofScope setup value body s.place >>= fun o =>
        runFrom setup (s.gatherAll o.node?.toList) := by
  obtain ⟨hplace, hscope⟩ := place_openScope hs hopen
  simp only [matchElement, hopen, hf, bind_assoc, Outline.ofScope]
  refine bind_congr_of_ok fun field _ => ?_
  rcases field with _ | ⟨field | relation⟩
  · rfl
  · rfl
  · simp only [bind_assoc, pure_bind]
    refine bind_congr_of_ok fun conditions _ => ?_
    refine bind_congr_of_ok fun _ _ => ?_
    rw [← hplace] at h
    rw [runFrom_openFrame_fragment hlimit _ h hscope, hplace]
    simp only [runFrom_openScope hlimit, Outline.node?, Option.toList_some]
    congr 1
    funext o
    simp [Frame.predicate, Place.path]
    rfl

/-! ## Field keys -/

theorem openPath_runFrom {f : Fragment} {x : Traced Outline} {key : OpenKey}
    (hopen : s.hasOpenField = false) (h : ReadAs setup (s.place.enter key) f x) (hs : s.Aligned) :
    runFrom setup (s.openPath key [.fragment f]) =
      x >>= fun o => runFrom setup (s.gatherAll o.node?.toList) := by
  obtain ⟨hplace, hs'⟩ := place_openPath hs hopen key
  have hpush : s.openPath key [.fragment f] = (s.openPath key []).push [.fragment f] := rfl
  rw [hpush, h _ hs' hplace]
  simp only [runFrom_openPath hlimit]

theorem readAs_scope {place : Place} {key : String} {body : Place → Traced Outline}
    (hfield : place.isField = true)
    (h : ReadAs setup place.inScope [(key, value)] (body place.inScope)) :
    ReadAs setup place (.scope key value)
      (Outline.ofScope setup (.ofEntries [(key, value)]) body place) := by
  rintro s hs rfl
  have hkey : DocumentKey.ofText "$elemMatch" = .elemMatch := by decide +kernel
  rw [runFrom_push hlimit]
  simp only [perform, read, Fragment.scope, readEntry, hkey]
  exact matchElement_runFrom hlimit hfield rfl h hs

theorem readAs_onRelation {place : Place} {e : String × Value} (hfield : place.isField = true)
    (h : ∀ place, ReadAs setup place [e] (Outline.ofEntry setup e place)) :
    ReadAs setup place (.onRelation e) (Outline.ofRelationEntry setup e place) := by
  unfold Fragment.onRelation Outline.ofRelationEntry
  split
  · exact h place
  · exact readAs_scope hlimit hfield (h _)

/-- The value of a bare relation key: a frame around its entries, inside the open key. -/
theorem onRelation_runFrom {key : OpenKey} {f : Fragment}
    (hopen : s.hasOpenField = false) (hf : value.mapping? = some f) (hne : f ≠ [])
    (h : ∀ e ∈ f, ∀ place, ReadAs setup place [e] (Outline.ofEntry setup e place))
    (hs : s.Aligned) :
    runFrom setup ((s.openPath key []).openFrame ⟨.all, []⟩
        (f.map fun e => .fragment (.onRelation e))) =
      Outline.ofRelationValue setup value (s.place.enter key) >>= fun o =>
        runFrom setup (s.gatherAll o.node?.toList) := by
  obtain ⟨hplace, hs'⟩ := place_openPath hs hopen key
  have hread (e : String × Value) (he : e ∈ f) : ReadAs setup (s.openPath key []).place
      (.onRelation e) (Outline.ofRelationEntry setup e (s.openPath key []).place) :=
    readAs_onRelation hlimit (by rw [hplace]; rfl) (h e he)
  rw [runFrom_openFrame_fragments hlimit _ hread hs', hplace,
    Outline.ofRelationValue_of_mapping? hf hne]
  simp [runFrom_openPath hlimit, Outline.node?, Frame.predicate]

/-- The rest of a key is a key of its own, in a scope on the relation before it. -/
theorem rest_runFrom {key : OpenKey} {rest : Path} {body : Place → Traced Outline}
    (hopen : s.hasOpenField = false) (hne : rest ≠ [])
    (hsafe : ∀ segment ∈ rest, Path.IsSafe segment)
    (h : ∀ s' : TraversalState, s'.Aligned → (descend setup s' rest.text value >>= runFrom setup) =
      body s'.place >>= fun o => runFrom setup (s'.gatherAll o.node?.toList))
    (hs : s.Aligned) :
    runFrom setup (s.openPath key [.fragment (.scope rest.text value)]) =
      Outline.ofScope setup (.ofEntries [(rest.text, value)]) body (s.place.enter key) >>=
        fun o => runFrom setup (s.gatherAll o.node?.toList) := by
  refine openPath_runFrom hlimit hopen (readAs_scope hlimit rfl ?_) hs
  intro s' hs' hplace
  rw [runFrom_push hlimit, ← hplace]
  simp only [perform, read, readEntry, DocumentKey.ofText_of_isSafe hne hsafe]
  exact h s' hs'

/-- A key that has passed its checks is opened as a whole, or up to the next relation with the rest
of it behind that. -/
theorem enter_runFrom {inside : Place → Traced Outline}
    (hinside : ∀ place, ReadAs setup place (.ofValue value) (inside place))
    (hentries : ∀ f, value.mapping? = some f → ∀ e ∈ f, ∀ place,
      ReadAs setup place [e] (Outline.ofEntry setup e place))
    {key inner : Path} (hkey : key ≠ []) (hsafe : ∀ segment ∈ key, Path.IsSafe segment)
    (hrest : ∀ width, (key.drop width).length < key.length → key.drop width ≠ [] →
      ∀ s' : TraversalState, s'.Aligned →
        (descend setup s' (Path.text (key.drop width)) value >>= runFrom setup) =
          Outline.ofKey setup value inside (Outline.ofRelationValue setup value) (key.drop width)
            s'.place >>= fun o => runFrom setup (s'.gatherAll o.node?.toList))
    (steps : List Step) (hopen : s.hasOpenField = false) (hs : s.Aligned) :
    (enter s ⟨key, inner⟩ value (crossings steps) >>= runFrom setup) =
      Outline.ofOpened setup value inside (Outline.ofRelationValue setup value) ⟨key, inner⟩ steps
        s.place >>= fun o => runFrom setup (s.gatherAll o.node?.toList) := by
  have hkeys : s.place.key = s.openKey := rfl
  unfold enter Outline.ofOpened
  simp only [hkeys]
  cases (crossings steps).find? (s.openKey.internal.length ≤ ·) with
  | none => exact openPath_runFrom hlimit hopen (hinside _) hs
  | some next =>
    have hwidth : 0 < next - s.openKey.internal.length + 1 := Nat.succ_pos _
    dsimp only
    generalize next - s.openKey.internal.length + 1 = width at hwidth ⊢
    specialize hrest width
    cases hdrop : key.drop width with
    | nil =>
      have htake : key.take width = key := by simpa [hdrop] using key.take_append_drop width
      have hempty : Path.text [] = "" := rfl
      rw [htake, if_pos hempty]
      cases hf : value.mapping? with
      | none =>
        rw [Outline.ofRelationValue_of_mapping?_eq_none hf]
        rfl
      | some f =>
        rcases f with _ | ⟨e, f⟩
        · rw [Outline.ofRelationValue_of_empty hf]
          rfl
        · exact onRelation_runFrom hlimit hopen hf (List.cons_ne_nil _ _) (hentries _ hf) hs
    | cons first rest =>
      have hne : first :: rest ≠ [] := List.cons_ne_nil _ _
      have hsafe' : ∀ segment ∈ first :: rest, Path.IsSafe segment := fun segment h =>
        hsafe segment (List.mem_of_mem_drop (hdrop ▸ h))
      have hlt : (key.drop width).length < key.length := by
        have := List.length_pos_iff.mpr hkey
        rw [List.length_drop]
        omega
      rw [hdrop] at hrest hlt
      rw [if_neg (Path.text_ne_empty hne hsafe')]
      exact rest_runFrom hlimit hopen hne hsafe' (hrest hlt hne) hs

theorem descend_runFrom {inside : Place → Traced Outline}
    (hinside : ∀ place, ReadAs setup place (.ofValue value) (inside place))
    (hentries : ∀ f, value.mapping? = some f → ∀ e ∈ f, ∀ place,
      ReadAs setup place [e] (Outline.ofEntry setup e place))
    {key : Path} (hkey : key ≠ []) (hplain : ∀ segment ∈ key, Path.IsPlain segment)
    (hs : s.Aligned) :
    (descend setup s key.text value >>= runFrom setup) =
      Outline.ofKey setup value inside (Outline.ofRelationValue setup value) key s.place >>=
        fun o => runFrom setup (s.gatherAll o.node?.toList) := by
  induction hn : key.length using Nat.strongRecOn generalizing s key with
  | ind n ih =>
    rw [Outline.ofKey_eq_ofOpened]
    simp only [descend, Path.ofText_text hkey hplain, bind_assoc]
    refine bind_congr_of_ok fun _ hcheck => ?_
    refine bind_congr_of_ok fun inner _ => ?_
    refine bind_congr_of_ok fun allowed _ => ?_
    cases allowed with
    | false => rfl
    | true =>
      cases hopen : s.hasOpenField with
      | true =>
        simp only [place, hopen]
        rfl
      | false =>
        simp only [place, hopen, Bool.not_true, Bool.false_eq_true, if_false, bind_assoc,
          pure_bind, Outline.node?]
        refine bind_congr_of_ok fun steps _ => ?_
        have hrest (width : Nat) (hlt : (key.drop width).length < key.length)
            (hne : key.drop width ≠ []) (s' : TraversalState) (hs' : s'.Aligned) :=
          ih _ (hn ▸ hlt) hne (fun segment h => hplain segment (List.mem_of_mem_drop h)) hs' rfl
        have hsafe := (Path.check_eq_ok_iff key _).mp hcheck
        have hplace : (⟨s.openKey, false⟩ : Place) = s.place := by rw [place, hopen]
        rw [hplace]
        exact enter_runFrom hlimit hinside hentries hkey hsafe hrest steps hopen hs

/-! ## Documents -/

theorem readAs_ofValue {f : Fragment} {v : Value} (hf : v.mapping? = some f)
    (h : ∀ e ∈ f, ∀ place, ReadAs setup place [e] (Outline.ofEntry setup e place))
    (otherwise : Place → Traced Outline) (place : Place) :
    ReadAs setup place f (Outline.ofValue setup otherwise v place) := by
  rw [Outline.ofValue_of_mapping? hf]
  exact readAs_ofFragment hlimit fun e he => h e he place

/-- The value of a scalar field: a mapping, or an equation. -/
theorem readAs_ofScalarValue {v : Value}
    (h : ∀ f, v.mapping? = some f → ∀ e ∈ f, ∀ place,
      ReadAs setup place [e] (Outline.ofEntry setup e place)) (place : Place) :
    ReadAs setup place (.ofValue v)
      (Outline.ofValue setup (Outline.ofOperator setup "$eq" v) v place) := by
  cases hf : v.mapping? with
  | some f =>
    simp only [Fragment.ofValue, hf, Option.getD_some]
    exact readAs_ofValue hlimit hf (h f hf) _ place
  | none =>
    rintro s hs rfl
    have hkey : DocumentKey.ofText "$eq" = .operator "$eq" := by decide +kernel
    rw [Outline.ofValue_of_mapping?_eq_none hf, runFrom_push hlimit]
    simp only [Fragment.ofValue, hf, Option.getD_none, perform, read, readEntry, hkey]
    exact operate_runFrom "$eq" hs

theorem readAs_ofEntry (e : String × Value) :
    ∀ place, ReadAs setup place [e] (Outline.ofEntry setup e place) := by
  induction e using Value.entry_induction with
  | entry key v hmapping hfragments =>
    rintro place s hs rfl
    have hlist (fs : List Fragment) (hfs : v.fragments? = some fs) (f : Fragment) (hf : f ∈ fs) :
        ReadAs setup s.place f (Outline.ofFragment setup f s.place) :=
      readAs_ofFragment hlimit fun e he => hfragments fs hfs f hf e he s.place
    rw [runFrom_push hlimit]
    simp only [perform, read, readEntry, Outline.ofEntry]
    cases DocumentKey.ofText key with
    | all =>
      exact combine_runFrom hlimit .all
        (fun os => by simp [Outline.node?, Frame.predicate]) hlist hs
    | any =>
      exact combine_runFrom hlimit .any
        (fun os => by simp [Outline.node?, Frame.predicate]) hlist hs
    | none => exact combineNone_runFrom hlimit hlist hs
    | not =>
      refine negate_runFrom hlimit rfl (fun f hf => ?_) hs
      exact readAs_ofFragment hlimit fun e he => hmapping f hf e he s.place
    | elemMatch =>
      cases hopen : s.hasOpenField with
      | false => simp [matchElement, place, hopen, refuse_bind]
      | true =>
        cases hf : v.mapping? with
        | none => simp [matchElement, place, hopen, hf, Value.isMapping, refuse_bind]
        | some f =>
          rw [if_pos (by simp [place, hopen, Value.isMapping, hf])]
          exact matchElement_runFrom hlimit hopen hf
            (readAs_ofValue hlimit hf (hmapping f hf) _ _) hs
    | operator token => exact operate_runFrom token hs
    | field text =>
      have h := descend_runFrom hlimit (readAs_ofScalarValue hlimit hmapping) hmapping
        (Path.ofText_ne_nil text) (fun _ => Path.isPlain_of_mem_ofText) hs
      rw [Path.text_ofText] at h
      exact h

end Reading

/-- The traversal of a document comes to the predicate of its outline, or to the first fault on
the way, with the same events. -/
theorem run_eq_outline (hlimit : setup.policies.limit = none) (document : Fragment) :
    run setup document = (do return (← Outline.ofDocument setup document).predicate) := by
  have hread : ReadAs setup .root document (Outline.ofDocument setup document) :=
    readAs_ofFragment hlimit fun e _ => readAs_ofEntry hlimit e .root
  have h := hread ⟨[], [], [], [⟨.all, []⟩]⟩
    ⟨Nat.le_refl _, Nat.zero_le _, List.cons_ne_nil _ _⟩ rfl
  rw [run_eq_runFrom]
  refine h.trans ?_
  congr 1
  funext o
  rw [runFrom_of_done (by rfl)]
  cases ho : o.node? <;> simp [gatherAll, TraversalState.result, Outline.predicate, ho] <;> rfl

end Traversal
end RowFilter
