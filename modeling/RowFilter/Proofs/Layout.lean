import RowFilter.Proofs.Compiled

/-!
# The states of a traversal

Which states a traversal comes through, and what holds of all of them. Every open key, scope
and frame has its closing task in the pending work, in the order in which they were opened, and
every frame has room for the nodes that are still to come to it.
-/

namespace RowFilter

namespace Traced

/-- A traced result that is `good`, or fails in a way that is `bad`. -/
structure Ends {α : Type} (good : α → Prop) (bad : Fault → Prop) (x : Traced α) : Prop where
  good : ∀ a, x.result = .ok a → good a
  bad : ∀ fault, x.result = .error fault → bad fault

namespace Ends
variable {α β : Type} {good : α → Prop} {bad : Fault → Prop}

theorem pure {a : α} (h : good a) : (pure a : Traced α).Ends good bad where
  good := by
    rintro _ ⟨⟩
    exact h
  bad := fun _ hfault => nomatch hfault

theorem refuse {cause : Cause} {dataKey : Path} {filter : Value} {op : Option String}
    (h : bad (.refused ⟨cause, dataKey, filter, op⟩)) :
    (refuse cause dataKey filter op : Traced α).Ends good bad where
  good := fun a ha => absurd ha (refuse_result_ne_ok cause dataKey filter op a)
  bad := by
    rintro _ ⟨⟩
    exact h

theorem bind {x : Traced β} {f : β → Traced α} (hbad : ∀ fault, x.result = .error fault → bad fault)
    (h : ∀ b, x.result = .ok b → (f b).Ends good bad) : (x >>= f).Ends good bad where
  good := by
    intro a ha
    obtain ⟨b, hb, hf⟩ := bind_result_eq_ok_iff.mp ha
    exact (h b hb).good a hf
  bad := by
    intro fault hfault
    obtain hx | ⟨b, hb, hf⟩ := bind_result_eq_error_iff.mp hfault
    · exact hbad fault hx
    · exact (h b hb).bad fault hf

end Ends
end Traced

/-- A denial takes one node at most. -/
def Frame.Takes (frame : Frame) (n : Nat) : Prop :=
  frame.combinator = .not → frame.gathered.length + n ≤ 1

theorem Frame.takes_of_ne {frame : Frame} (hne : frame.combinator ≠ .not) (n : Nat) :
    frame.Takes n :=
  fun hnot => absurd hnot hne

namespace Traversal
open TraversalState Traced

variable {setup : Setup} {document : Fragment} {s t : TraversalState}

/-- The states at which a traversal turns to its next task, or ends. -/
inductive Reachable (setup : Setup) (document : Fragment) : TraversalState → Prop
  | start : Reachable setup document (.start document)
  | step {s t : TraversalState} {task : Task} {rest : List Task} :
      Reachable setup document s → s.work = task :: rest →
      (Traversal.step setup s task rest).result = .ok t → Reachable setup document t

/-! ## Runs and states -/

/-- The traversal comes to what it comes to from any of its states. -/
theorem Reachable.run_result (h : Reachable setup document s) :
    (run setup document).result = (runFrom setup s).result := by
  induction h with
  | start => rw [run_eq_runFrom]
  | step _ hwork hstep ih => rw [ih, runFrom_of_work hwork, bind_result_of_ok hstep]

/-- A traversal that ends well carries every task out. -/
theorem Reachable.exists_step (h : Reachable setup document s) {p : Predicate}
    (hrun : (run setup document).result = .ok p) {task : Task} {rest : List Task}
    (hwork : s.work = task :: rest) : ∃ t, (Traversal.step setup s task rest).result = .ok t := by
  rw [h.run_result, runFrom_of_work hwork] at hrun
  obtain ⟨t, hstep, _⟩ := bind_result_eq_ok_iff.mp hrun
  exact ⟨t, hstep⟩

/-- Every traversal stops: at a fault, or with nothing left to do. -/
theorem Reachable.exists_stop (h : Reachable setup document s) :
    ∃ t, Reachable setup document t ∧ (t.work = [] ∨
      ∃ task rest fault, t.work = task :: rest ∧
        (Traversal.step setup t task rest).result = .error fault) := by
  induction hload : s.load using Nat.strongRecOn generalizing s with
  | ind n ih =>
    cases hwork : s.work with
    | nil => exact ⟨s, h, .inl hwork⟩
    | cons task rest =>
      cases hstep : (Traversal.step setup s task rest).result with
      | error fault => exact ⟨s, h, .inr ⟨task, rest, fault, hwork, hstep⟩⟩
      | ok t => exact ih t.load (hload ▸ load_step hwork hstep) (h.step hwork hstep) rfl

/-- Setups that carry out alike every task that the traversal of one of them comes to have the
same traversal. -/
theorem run_congr_of_step {setup' : Setup}
    (h : ∀ s task rest, Reachable setup document s → s.work = task :: rest →
      Traversal.step setup s task rest = Traversal.step setup' s task rest) :
    run setup document = run setup' document := by
  have hloop (fuel : Nat) : ∀ (past : List Event) (s : TraversalState),
      Reachable setup document s → loop setup fuel past s = loop setup' fuel past s := by
    induction fuel with
    | zero => exact fun _ _ _ => rfl
    | succ fuel ih =>
      intro past s hs
      unfold loop
      cases hwork : s.work with
      | nil => rfl
      | cons task rest =>
        dsimp only
        rw [← h s task rest hs hwork]
        split
        · next events t hstep =>
          exact ih _ t (hs.step hwork (congrArg Traced.result hstep))
        · rfl
  exact hloop _ _ _ .start

/-- A step that fails ends the traversal. -/
theorem Reachable.run_of_error (h : Reachable setup document s) {task : Task} {rest : List Task}
    {fault : Fault} (hwork : s.work = task :: rest)
    (hstep : (Traversal.step setup s task rest).result = .error fault) :
    (run setup document).result = .error fault := by
  rw [h.run_result, runFrom_of_work hwork]
  exact bind_result_of_error hstep

/-- What a traversal comes to is the result of its last state, or the fault of a step there. -/
theorem exists_stop_of_run (setup : Setup) (document : Fragment) :
    ∃ t, Reachable setup document t ∧
      (t.work = [] ∧ (run setup document).result = t.result ∨
        ∃ task rest fault, t.work = task :: rest ∧
          (step setup t task rest).result = .error fault ∧
          (run setup document).result = .error fault) := by
  obtain ⟨t, ht, hdone | ⟨task, rest, fault, hwork, hstep⟩⟩ :=
    Reachable.exists_stop (.start : Reachable setup document _)
  · refine ⟨t, ht, .inl ⟨hdone, ?_⟩⟩
    rw [ht.run_result, runFrom_of_done hdone, ofExcept_result]
  · refine ⟨t, ht, .inr ⟨task, rest, fault, hwork, hstep, ?_⟩⟩
    exact ht.run_of_error hwork hstep

/-! ## Layout -/

/-- The stacks and the closing tasks in the pending work correspond. The number says how many
nodes are to come to the innermost frame before the work that is left. Below everything lies the
root frame, a conjunction. -/
inductive Layout : Nat → List Task → List OpenKey → List OpenKey → List Frame → Prop
  | done {n : Nat} {gathered : List Predicate} : Layout n [] [] [] [⟨.all, gathered⟩]
  | fragment {n : Nat} {f : Fragment} {work : List Task} {paths scopes : List OpenKey}
      {frames : List Frame} :
      Layout (n + 1) work paths scopes frames → Layout n (.fragment f :: work) paths scopes frames
  | closePath {n : Nat} {work : List Task} {key : OpenKey} {keys : List OpenKey}
      {frames : List Frame} :
      Layout n work keys keys frames → Layout n (.closePath :: work) (key :: keys) keys frames
  | closeScope {n : Nat} {work : List Task} {key : OpenKey} {keys : List OpenKey}
      {frames : List Frame} :
      Layout n work (key :: keys) keys frames →
      Layout n (.closeScope :: work) (key :: keys) (key :: keys) frames
  | closeFrame {n : Nat} {work : List Task} {paths scopes : List OpenKey} {frame : Frame}
      {frames : List Frame} :
      frame.Takes n → Layout 1 work paths scopes frames →
      Layout n (.closeFrame :: work) paths scopes (frame :: frames)

namespace Layout

variable {n m : Nat} {work : List Task} {paths scopes : List OpenKey} {frames : List Frame}

theorem mono (h : Layout n work paths scopes frames) (hle : m ≤ n) :
    Layout m work paths scopes frames := by
  induction h generalizing m with
  | done => exact .done
  | fragment _ ih => exact .fragment (ih (Nat.succ_le_succ hle))
  | closePath _ ih => exact .closePath (ih hle)
  | closeScope _ ih => exact .closeScope (ih hle)
  | closeFrame htakes hrest _ => exact .closeFrame (fun hnot => by have := htakes hnot; omega) hrest

theorem fragments {fs : List Fragment} (h : Layout (n + fs.length) work paths scopes frames) :
    Layout n (fs.map .fragment ++ work) paths scopes frames := by
  induction fs generalizing n with
  | nil => exact h
  | cons f fs ih => exact .fragment (ih (by simpa [Nat.add_assoc, Nat.add_comm 1] using h))

/-- A node that was to come has come. -/
theorem gather {frame : Frame} (p : Predicate)
    (h : Layout (n + 1) work paths scopes (frame :: frames)) :
    Layout n work paths scopes ({ frame with gathered := p :: frame.gathered } :: frames) := by
  have htakes {frame : Frame} {n : Nat} (h : frame.Takes (n + 1)) :
      Frame.Takes { frame with gathered := p :: frame.gathered } n := by
    intro hnot
    have := h hnot
    simp only [List.length_cons]
    omega
  generalize hn : n + 1 = k at h
  generalize hframes : frame :: frames = stack at h
  induction h generalizing n with
  | done =>
    cases hframes
    exact .done
  | fragment _ ih => exact .fragment (ih (by rw [hn]) hframes)
  | closePath _ ih => exact .closePath (ih hn hframes)
  | closeScope _ ih => exact .closeScope (ih hn hframes)
  | closeFrame h hrest _ =>
    cases hframes
    exact .closeFrame (htakes (hn ▸ h)) hrest

/-- The outermost frame is that of the document. -/
theorem getLast?_frames (h : Layout n work paths scopes frames) :
    ∃ gathered, frames.getLast? = some ⟨.all, gathered⟩ := by
  induction h with
  | done => exact ⟨_, rfl⟩
  | fragment _ ih => exact ih
  | closePath _ ih => exact ih
  | closeScope _ ih => exact ih
  | closeFrame _ _ ih =>
    obtain ⟨gathered, hlast⟩ := ih
    exact ⟨gathered, by rw [List.getLast?_cons, hlast]; rfl⟩

theorem exists_frame (h : Layout n work paths scopes frames) :
    ∃ frame outer, frames = frame :: outer := by
  obtain ⟨gathered, hlast⟩ := h.getLast?_frames
  refine List.exists_cons_of_ne_nil ?_
  rintro rfl
  cases hlast

/-- The open scopes are the open keys, but for one key that no scope contains yet. -/
theorem keys (h : Layout n work paths scopes frames) :
    paths = scopes ∨ ∃ key, paths = key :: scopes := by
  induction h with
  | done => exact .inl rfl
  | fragment _ ih => exact ih
  | closePath => exact .inr ⟨_, rfl⟩
  | closeScope => exact .inl rfl
  | closeFrame _ _ ih => exact ih

/-- Every open key and scope and every frame but the root has a closing task of its own. -/
theorem length_le (h : Layout n work paths scopes frames) :
    paths.length + scopes.length + frames.length ≤ work.length + 1 := by
  induction h with
  | done => exact Nat.le_refl _
  | fragment _ ih => exact Nat.le_succ_of_le ih
  | closePath _ ih =>
    simp only [List.length_cons] at ih ⊢
    omega
  | closeScope _ ih =>
    simp only [List.length_cons] at ih ⊢
    omega
  | closeFrame _ _ ih => exact Nat.succ_le_succ ih

theorem length_gathered_le (h : Layout n work paths scopes frames) :
    ∀ frame ∈ frames, frame.combinator = .not → frame.gathered.length ≤ 1 := by
  have hle {frame : Frame} {n : Nat} (h : frame.Takes n) (hnot : frame.combinator = .not) :
      frame.gathered.length ≤ 1 := Nat.le_of_add_right_le (h hnot)
  induction h with
  | done => exact List.forall_mem_singleton.mpr fun hnot => nomatch hnot
  | fragment _ ih => exact ih
  | closePath _ ih => exact ih
  | closeScope _ ih => exact ih
  | closeFrame htakes _ ih => exact List.forall_mem_cons.mpr ⟨hle htakes, ih⟩

end Layout

/-! ## Steps -/

/-- The layout of a state, with so many nodes still to come to its innermost frame. -/
def LaidOut (n : Nat) (s : TraversalState) : Prop := Layout n s.work s.paths s.scopes s.frames

namespace LaidOut

variable {n : Nat}

theorem start : LaidOut 0 (.start document) :=
  .fragment .done

theorem paths_eq (h : LaidOut n s) (hopen : s.hasOpenField = false) : s.paths = s.scopes := by
  obtain heq | ⟨key, heq⟩ := h.keys
  · exact heq
  · simp [hasOpenField, heq] at hopen

theorem paths_eq_cons (h : LaidOut n s) (hopen : s.hasOpenField = true) :
    ∃ key, s.paths = key :: s.scopes := by
  obtain heq | h := h.keys
  · simp [hasOpenField, heq] at hopen
  · exact h

theorem openPath (h : LaidOut n s) (hopen : s.hasOpenField = false) (key : OpenKey) :
    LaidOut n (s.openPath key []) := by
  have hpaths := h.paths_eq hopen
  unfold LaidOut at h
  unfold LaidOut TraversalState.openPath
  rw [hpaths] at h ⊢
  exact .closePath h

theorem openScope (h : LaidOut n s) (hopen : s.hasOpenField = true) : LaidOut n s.openScope := by
  obtain ⟨key, hpaths⟩ := h.paths_eq_cons hopen
  have hrest : Layout n s.work (key :: s.scopes) s.scopes s.frames := hpaths ▸ h
  simp only [LaidOut, TraversalState.openScope, hpaths, List.length_cons, Nat.add_sub_cancel_left,
    List.take_succ_cons, List.take_zero, List.reverse_singleton, OpenKey.join_singleton]
  exact .closeScope hrest

/-- The one node that was to come from here is that of the new frame. -/
theorem openFrame (h : LaidOut 1 s) {frame : Frame} {fs : List Fragment}
    (htakes : frame.Takes fs.length) : LaidOut 0 (s.openFrame frame (fs.map .fragment)) :=
  Layout.fragments (.closeFrame (by rwa [Nat.zero_add]) h)

theorem openFrame_fragment (h : LaidOut 1 s) {frame : Frame} {f : Fragment}
    (htakes : frame.Takes 1) : LaidOut 0 (s.openFrame frame [.fragment f]) :=
  .fragment (.closeFrame htakes h)

theorem push {f : Fragment} (h : LaidOut (n + 1) s) : LaidOut n (s.push [.fragment f]) :=
  .fragment h

theorem gather (h : LaidOut (n + 1) s) (p : Predicate) : ∃ t, s.gather p = .ok t ∧ LaidOut n t := by
  obtain ⟨work, paths, scopes, frames⟩ := s
  obtain ⟨frame, outer, rfl⟩ := h.exists_frame
  exact ⟨_, rfl, Layout.gather p h⟩

end LaidOut

/-! ## What a step comes to -/

/-- Too much pending work is the document's fault. -/
theorem isRejection_of_withinLimit {fault : Fault} (h : withinLimit setup s = .error fault) :
    fault.isRejection = true := by
  unfold withinLimit at h
  split at h
  · split at h <;> cases h
    rfl
  · cases h

/-- What the faults of a step are among: all refusals, and the faults of the policies. -/
structure FaultsAmong (setup : Setup) (bad : Fault → Prop) : Prop where
  refused : ∀ r, bad (.refused r)
  whitelist : ∀ path fault,
    (setup.policies.isWhitelisted setup.schema setup.root path).result = .error fault → bad fault
  translation : ∀ key fault, (setup.policies.translate key).result = .error fault → bad fault
  conditions : ∀ path fault, (setup.policies.conditionsFor path).result = .error fault → bad fault

/-- What the faults of an operator at the open keys are among. -/
def OperatorFaultsAmong (setup : Setup) (s : TraversalState) (token : String) (value : Value)
    (bad : Fault → Prop) : Prop :=
  ∀ target fault, (openField? setup s).result = .ok (some target) →
    target.evaluate token value s.openKey.external s.openKey.internal.strip = .error fault →
    bad fault

section Reading

variable {bad : Fault → Prop} (hbad : FaultsAmong setup bad) (h : LaidOut 1 s) (value : Value)
include hbad

theorem FaultsAmong.ends_refuse {α : Type} {good : α → Prop} {cause : Cause} {dataKey : Path}
    {op : Option String} : (refuse cause dataKey value op).Ends good bad :=
  .refuse (hbad.refused _)

theorem FaultsAmong.resolve {path dataKey : Path} {fault : Fault}
    (h : (resolve setup path dataKey).result = .error fault) : bad fault := by
  obtain ⟨unresolved, _, rfl⟩ := error_of_mapError h
  exact hbad.refused _

theorem FaultsAmong.openField {fault : Fault}
    (h : (openField? setup s).result = .error fault) : bad fault := by
  obtain h | ⟨_, _, h⟩ := bind_result_eq_error_iff.mp h
  · exact hbad.resolve h
  · cases h

theorem FaultsAmong.check {p dataKey : Path} {fault : Fault}
    (h : (ofExcept (p.check dataKey)).result = .error fault) : bad fault := by
  simp only [ofExcept_result, Path.check] at h
  split at h <;> cases h
  exact hbad.refused _

theorem FaultsAmong.innerKey {key dataKey : Path} {fault : Fault}
    (h : (innerKey setup key dataKey value).result = .error fault) : bad fault := by
  obtain h | ⟨answer, _, h⟩ := bind_result_eq_error_iff.mp h
  · exact hbad.translation _ _ h
  · dsimp only at h
    split at h <;> cases h
    exact hbad.refused _

include h

theorem combine_ends {combinator : Combinator} (hne : combinator ≠ .not) (op : String) :
    (combine s combinator op value).Ends (LaidOut 0) bad := by
  unfold combine
  split
  · exact .pure (h.openFrame (Frame.takes_of_ne hne _))
  · exact hbad.ends_refuse value

theorem combineNone_ends : (combineNone s value).Ends (LaidOut 0) bad := by
  unfold combineNone
  split
  · exact .pure (h.openFrame_fragment fun _ => Nat.le_refl 1)
  · exact hbad.ends_refuse value

theorem negate_ends : (negate s value).Ends (LaidOut 0) bad := by
  unfold negate
  split
  · exact .pure (h.openFrame_fragment fun _ => Nat.le_refl 1)
  · exact hbad.ends_refuse value

theorem matchElement_ends : (matchElement setup s value).Ends (LaidOut 0) bad := by
  unfold matchElement
  dsimp only
  split
  · next hopen _ =>
    refine .bind (fun _ => hbad.openField) fun target _ => ?_
    split
    · refine .bind (hbad.conditions _) fun conditions _ => ?_
      refine .bind (fun _ hlog => nomatch hlog) fun _ _ => .pure ?_
      exact (h.openScope hopen).openFrame_fragment (Frame.takes_of_ne Combinator.noConfusion _)
    · exact hbad.ends_refuse value
  · exact hbad.ends_refuse value

theorem operate_ends {token : String} (hoperator : OperatorFaultsAmong setup s token value bad) :
    (operate setup s token value).Ends (LaidOut 0) bad := by
  unfold operate
  dsimp only
  split
  · exact hbad.ends_refuse value
  · refine .bind (fun _ => hbad.openField) fun target htarget => ?_
    split
    · refine .bind (fun fault => hoperator _ fault htarget) fun p _ => ?_
      obtain ⟨t, ht, hlaid⟩ := h.gather p
      rw [ht]
      exact .pure hlaid
    · exact hbad.ends_refuse value

theorem enter_ends (hopen : s.hasOpenField = false) (key : OpenKey) (crossed : List Nat) :
    (enter s key value crossed).Ends (LaidOut 0) bad := by
  unfold enter
  dsimp only
  split
  · exact .pure (h.openPath hopen key).push
  · split
    · split
      · exact hbad.ends_refuse value
      · exact hbad.ends_refuse value
      · next entries _ _ =>
        have hinside : (entries.map fun e => Task.fragment (.onRelation e)) =
            (entries.map Fragment.onRelation).map .fragment := by simp
        rw [hinside]
        exact .pure ((h.openPath hopen _).openFrame (Frame.takes_of_ne Combinator.noConfusion _))
    · exact .pure (h.openPath hopen _).push

theorem descend_ends (text : String) : (descend setup s text value).Ends (LaidOut 0) bad := by
  unfold descend
  refine .bind (fun _ => hbad.check) fun _ _ => ?_
  refine .bind (fun _ => hbad.innerKey value) fun inner _ => ?_
  refine .bind (hbad.whitelist _) fun allowed _ => ?_
  split
  · exact hbad.ends_refuse value
  · split
    · exact hbad.ends_refuse _
    · next hopen =>
      exact .bind (fun _ => hbad.resolve) fun steps _ =>
        enter_ends hbad h value (by simpa using hopen) _ _

theorem readEntry_ends {key : String} (hoperator : OperatorFaultsAmong setup s key value bad) :
    (readEntry setup s key value).Ends (LaidOut 0) bad := by
  unfold readEntry
  cases hkey : DocumentKey.ofText key with
  | all => exact combine_ends hbad h value Combinator.noConfusion key
  | any => exact combine_ends hbad h value Combinator.noConfusion key
  | none => exact combineNone_ends hbad h value
  | not => exact negate_ends hbad h value
  | elemMatch => exact matchElement_ends hbad h value
  | operator token =>
    rw [DocumentKey.eq_of_ofText_operator hkey]
    exact operate_ends hbad h value hoperator
  | field text => exact descend_ends hbad h value text

omit value in
theorem read_ends {f : Fragment}
    (hoperator : ∀ token value, f = [(token, value)] →
      OperatorFaultsAmong setup s token value bad) :
    (read setup s f).Ends (LaidOut 0) bad := by
  rcases f with _ | ⟨e, _ | ⟨d, rest⟩⟩
  · exact .pure (h.mono (Nat.zero_le 1))
  · exact readEntry_ends hbad h _ (hoperator _ _ rfl)
  · have hinside : ((e :: d :: rest).map fun e => Task.fragment [e]) =
        ((e :: d :: rest).map fun e => [e]).map .fragment := by simp
    simp only [read, hinside]
    exact .pure (h.openFrame (Frame.takes_of_ne Combinator.noConfusion _))

end Reading

/-- Carrying a task out keeps the layout, and completing a frame never fails. -/
theorem perform_ends {bad : Fault → Prop} (hbad : FaultsAmong setup bad) {task : Task}
    {rest : List Task} (hwork : s.work = task :: rest) (h : LaidOut 0 s)
    (hoperator : ∀ token value, task = .fragment [(token, value)] →
      OperatorFaultsAmong setup s token value bad) :
    (perform setup { s with work := rest } task).Ends (LaidOut 0) bad := by
  obtain ⟨work, paths, scopes, frames⟩ := s
  cases hwork
  dsimp only [LaidOut] at h
  cases h with
  | fragment h =>
    have h : LaidOut 1 ⟨rest, paths, scopes, frames⟩ := h
    exact read_ends hbad h fun token value hf => hoperator token value (hf ▸ rfl)
  | closePath h => exact .pure h
  | closeScope h => exact .pure h
  | @closeFrame _ _ _ _ frame outer _ h =>
    have h : LaidOut 1 ⟨rest, paths, scopes, outer⟩ := h
    obtain ⟨t, ht, hlaid⟩ := h.gather frame.predicate
    simp only [perform, TraversalState.closeFrame, ht]
    exact .pure hlaid

/-- What a laid out state comes to is laid out again, under any setup. -/
theorem LaidOut.step {task : Task} {rest : List Task} (h : LaidOut 0 s)
    (hwork : s.work = task :: rest)
    (hstep : (Traversal.step setup s task rest).result = .ok t) : LaidOut 0 t := by
  obtain ⟨_, _, hperform⟩ := bind_result_eq_ok_iff.mp hstep
  have hany : FaultsAmong setup fun _ => True :=
    ⟨fun _ => trivial, fun _ _ _ => trivial, fun _ _ _ => trivial, fun _ _ _ => trivial⟩
  exact (perform_ends hany hwork h fun _ _ _ _ _ _ _ => trivial).good _ hperform

theorem Reachable.laidOut (h : Reachable setup document s) : LaidOut 0 s := by
  induction h with
  | start => exact LaidOut.start
  | step _ hwork hstep ih => exact ih.step hwork hstep

end Traversal

/-! ## Traversal and recursion -/

/-- Without a limit a traversal is the recursion over its document: the same predicate or the
same first fault, after the same questions and reports. On the way no denial ever gathers more
than one node. -/
theorem Traversal.run_is_recursion {setup : Setup} (hlimit : setup.policies.limit = none)
    (document : Fragment) :
    run setup document = (do return (← Outline.ofDocument setup document).predicate) ∧
      ∀ s, Reachable setup document s →
        ∀ frame ∈ s.frames, frame.combinator = .not → frame.gathered.length ≤ 1 :=
  ⟨run_eq_outline hlimit document, fun _ h => Layout.length_gathered_le h.laidOut⟩

namespace Sample

def denialSetup : Setup := ⟨catalog.schema, "Album", .ofOptions .empty⟩

def denialDocument : Fragment :=
  [("$nor", .list [.ofEntries [("tracks.playlists.name", .text "x"), ("title", .null)],
    .ofEntries [], .ofEntries [("$not", .ofEntries [("tracks.name", .ofEntries [])])]])]

/-- Of the three items the empty one adds nothing. -/
def denialPredicate : Predicate :=
  .not (.any [
    .all [.related tracks ["tracks"] (.related playlists ["tracks", "playlists"]
        (.test ⟨"name", "Playlist", .scalar .text⟩ ["tracks", "playlists", "name"]
          (.compare .eq (.text "x")))),
      .test ⟨"title", "Album", .scalar .text⟩ ["title"] (.compare .eq .null)],
    .not (.related tracks ["tracks"] .true)])

/-- The report of a scope on many rows, without conditions. -/
def bareScope (path : String) : Event :=
  .logged "Opened relation scope"
    [("path", .text path), ("cardinality", .text "many"), ("nestedConditions", .number (.ofNat 0))]

theorem run_is_recursion_denial :
    denialSetup.policies.limit = none ∧
      Traversal.run denialSetup denialDocument =
        (do return (← Outline.ofDocument denialSetup denialDocument).predicate) ∧
      Traversal.run denialSetup denialDocument =
        ⟨[bareScope "tracks", bareScope "tracks.playlists", bareScope "tracks"],
          .ok denialPredicate⟩ ∧
      ∀ s, Traversal.Reachable denialSetup denialDocument s →
        ∀ frame ∈ s.frames, frame.combinator = .not → frame.gathered.length ≤ 1 := by
  have hlimit : denialSetup.policies.limit = none := rfl
  obtain ⟨hrecursion, hdenials⟩ := Traversal.run_is_recursion hlimit denialDocument
  refine ⟨hlimit, hrecursion, ?_, hdenials⟩
  rfl

end Sample
end RowFilter
