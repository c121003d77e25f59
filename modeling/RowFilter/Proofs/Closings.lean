import RowFilter.Proofs.Layout
import RowFilter.Proofs.Operators

/-!
# Closing tasks

Whatever a traversal opens it closes again, once. At every task the pending work closes exactly
what is open, so that nothing is ever taken off an empty stack, and only the root frame is left
when no task is.

A field key and a scope are opened by the heights of two stacks alone. The heights suffice,
since the open scopes are the open keys, outermost first, up to one key that may have no scope.

None of this rests with the host, not even with its giving the same answer twice.
-/

namespace RowFilter

/-! ## What is open, and what closes it -/

/-- The stacks that a traversal opens things on. -/
inductive Stack where
  | paths
  | scopes
  | frames
deriving DecidableEq

/-- The stack that a task takes the top off. -/
def Task.closes : Task → Option Stack
  | .fragment _ => none
  | .closePath => some .paths
  | .closeScope => some .scopes
  | .closeFrame => some .frames

namespace TraversalState

/-- What the pending work closes, in order. -/
def closings (s : TraversalState) : List Stack := s.work.filterMap Task.closes

/-- Everything open has one pending task that closes it, but for the root frame, which is always
there. The open scopes are the open keys at the same places from the outermost on, and one key at
most is open inside the innermost scope. -/
structure Balanced (s : TraversalState) : Prop where
  paths : s.closings.count .paths = s.paths.length
  scopes : s.closings.count .scopes = s.scopes.length
  frames : s.closings.count .frames + 1 = s.frames.length
  root : ∃ gathered, s.frames.getLast? = some ⟨.all, gathered⟩
  heights : s.paths.length = s.scopes.length ∨ s.paths.length = s.scopes.length + 1
  keys : ∀ (place : Nat) (key : OpenKey), s.scopes.reverse[place]? = some key →
    s.paths.reverse[place]? = some key

/-- Nothing is open but the root frame. -/
structure AtRoot (s : TraversalState) : Prop where
  paths : s.paths = []
  scopes : s.scopes = []
  frames : ∃ gathered, s.frames = [⟨.all, gathered⟩]

namespace Balanced

variable {s : TraversalState} (h : s.Balanced)
include h

theorem frames_ne_nil : s.frames ≠ [] :=
  List.ne_nil_of_length_eq_add_one h.frames.symm

/-- With the last task everything is closed. -/
theorem atRoot (hwork : s.work = []) : s.AtRoot := by
  have hnone (stack : Stack) : s.closings.count stack = 0 := by
    rw [closings, hwork]
    rfl
  have hpaths := h.paths
  have hscopes := h.scopes
  have hframes := h.frames
  rw [hnone] at hpaths hscopes hframes
  obtain ⟨root, heq⟩ := List.length_eq_one_iff.mp hframes.symm
  obtain ⟨gathered, hroot⟩ := h.root
  rw [heq, List.getLast?_singleton, Option.some.injEq] at hroot
  exact ⟨List.length_eq_zero_iff.mp hpaths.symm, List.length_eq_zero_iff.mp hscopes.symm,
    gathered, hroot ▸ heq⟩

theorem exists_result : ∃ p, s.result = .ok p := by
  obtain ⟨frame, outer, hframes⟩ := List.exists_cons_of_ne_nil h.frames_ne_nil
  rw [result, hframes]
  exact ⟨_, rfl⟩

end Balanced
end TraversalState

/-! ## What a policy fails with -/

/-- A function of the host failed, or a condition of it is no predicate. -/
def Fault.isOfHost : Fault → Bool
  | .policyFailed _ | .invalidConditions _ | .noPredicate => true
  | _ => false

namespace Policies

variable {policies : Policies} {path : Path} {fault : Fault}

theorem isOfHost_of_ask {α : Type} {policy : Policy} {answer : Except String α}
    (h : (Traced.ask policy path answer).result = .error fault) : fault.isOfHost = true := by
  obtain ⟨_, _, rfl⟩ := error_of_mapError h
  rfl

theorem isOfHost_of_isWhitelisted {schema : Schema} {root : String}
    (h : (policies.isWhitelisted schema root path).result = .error fault) :
    fault.isOfHost = true := by
  unfold isWhitelisted at h
  split at h
  · cases h
  · cases h
  · obtain h | ⟨_, _, h⟩ := Traced.bind_result_eq_error_iff.mp h
    · exact isOfHost_of_ask h
    · cases h

theorem isOfHost_of_translate (h : (policies.translate path).result = .error fault) :
    fault.isOfHost = true := by
  unfold translate at h
  split at h
  · cases h
  · obtain h | ⟨_, _, h⟩ := Traced.bind_result_eq_error_iff.mp h
    · exact isOfHost_of_ask h
    · cases h

theorem isOfHost_of_conditionList {entry : ConditionEntry}
    (h : conditionList path entry = .error fault) : fault.isOfHost = true := by
  have hchecked {cs : List Condition}
      (h : (if cs.all Condition.looksRight then cs.mapM Condition.read
        else .error (.invalidConditions path.text)) = .error fault) : fault.isOfHost = true := by
    split at h
    · obtain ⟨c, _, hread⟩ := exists_mem_of_mapM_error h
      unfold Condition.read at hread
      split at hread <;> cases hread
      rfl
    · cases h
      rfl
  unfold conditionList at h
  dsimp only at h
  split at h
  · split at h
    · cases h
    · exact hchecked h
  · exact hchecked h
  · exact hchecked h

theorem isOfHost_of_conditionsFor (h : (policies.conditionsFor path).result = .error fault) :
    fault.isOfHost = true := by
  unfold conditionsFor at h
  split at h
  · cases h
  · split at h
    · exact isOfHost_of_conditionList h
    · cases h
  · obtain h | ⟨_, _, h⟩ := Traced.bind_result_eq_error_iff.mp h
    · exact isOfHost_of_ask h
    · exact isOfHost_of_conditionList h

end Policies

namespace Traversal
open TraversalState Traced

variable {setup : Setup} {document : Fragment} {s t : TraversalState}

namespace Layout

variable {n : Nat} {work : List Task} {paths scopes : List OpenKey} {frames : List Frame}

theorem count_closes (h : Layout n work paths scopes frames) :
    (work.filterMap Task.closes).count .paths = paths.length ∧
      (work.filterMap Task.closes).count .scopes = scopes.length ∧
      (work.filterMap Task.closes).count .frames + 1 = frames.length := by
  induction h with
  | done => exact ⟨rfl, rfl, rfl⟩
  | fragment _ ih => exact ih
  | closePath _ ih => simpa [Task.closes] using ih
  | closeScope _ ih => simpa [Task.closes] using ih
  | closeFrame _ _ ih => simpa [Task.closes] using ih

end Layout

theorem LaidOut.balanced {n : Nat} (h : LaidOut n s) : s.Balanced where
  paths := h.count_closes.1
  scopes := h.count_closes.2.1
  frames := h.count_closes.2.2
  root := h.getLast?_frames
  heights := by
    obtain heq | ⟨key, heq⟩ := h.keys
    · exact .inl (congrArg List.length heq)
    · exact .inr (congrArg List.length heq)
  keys := by
    intro place key hkey
    obtain heq | ⟨top, heq⟩ := h.keys
    · rwa [heq]
    · -- one more key on top leaves every place below it as it is
      obtain ⟨hplace, _⟩ := List.getElem?_eq_some_iff.mp hkey
      rwa [heq, List.reverse_cons, List.getElem?_append_left hplace]

/-! ## What a step fails with -/

/-- All faults that a traversal finds before it applies an operator are rejections, or faults of
the host. -/
theorem faultsAmong_of_isOfHost {bad : Fault → Prop}
    (hrejection : ∀ fault, fault.isRejection = true → bad fault)
    (hhost : ∀ fault, fault.isOfHost = true → bad fault) : FaultsAmong setup bad where
  refused := fun _ => hrejection _ rfl
  whitelist := fun _ fault hfault => hhost fault (Policies.isOfHost_of_isWhitelisted hfault)
  translation := fun _ fault hfault => hhost fault (Policies.isOfHost_of_translate hfault)
  conditions := fun _ fault hfault => hhost fault (Policies.isOfHost_of_conditionsFor hfault)

/-- A step that fails rejects the document, fails with the host, or misuses a comparison. -/
theorem LaidOut.fault_of_step {fault : Fault} (h : LaidOut 0 s) {task : Task} {rest : List Task}
    (hwork : s.work = task :: rest)
    (hstep : (Traversal.step setup s task rest).result = .error fault) :
    fault.isRejection = true ∨ fault.isOfHost = true ∨ ∃ misuse, fault = .misused misuse := by
  obtain hlimit | ⟨_, _, hperform⟩ := bind_result_eq_error_iff.mp hstep
  · exact .inl (isRejection_of_withinLimit hlimit)
  · have hbad : FaultsAmong setup fun fault =>
        fault.isRejection = true ∨ fault.isOfHost = true ∨ ∃ misuse, fault = .misused misuse :=
      faultsAmong_of_isOfHost (fun _ => .inl) fun _ hhost => .inr (.inl hhost)
    refine (perform_ends hbad hwork h ?_).bad fault hperform
    intro token value _ target fault _ hevaluate
    obtain hrejection | ⟨op, _, _, _, _, hmisused⟩ := Field.evaluate_eq_error hevaluate
    · exact .inl hrejection
    · exact .inr (.inr ⟨_, hmisused⟩)

/-- No step takes anything off an empty stack of frames. -/
theorem LaidOut.step_ne_noOpenFrame (h : LaidOut 0 s) {task : Task} {rest : List Task}
    (hwork : s.work = task :: rest) :
    (Traversal.step setup s task rest).result ≠ .error .noOpenFrame := by
  intro hstep
  obtain hrejection | hhost | ⟨_, hmisused⟩ := h.fault_of_step hwork hstep
  · cases hrejection
  · cases hhost
  · cases hmisused

/-! ## Runs -/

/-- The states that a traversal comes to if nothing ties what its host answers at one task to
what it answers at another: every task is carried out under a setup of its own. -/
inductive Visited (document : Fragment) : TraversalState → Prop
  | start : Visited document (.start document)
  | step {setup : Setup} {s t : TraversalState} {task : Task} {rest : List Task} :
      Visited document s → s.work = task :: rest →
      (Traversal.step setup s task rest).result = .ok t → Visited document t

theorem Reachable.visited (h : Reachable setup document s) : Visited document s := by
  induction h with
  | start => exact .start
  | step _ hwork hstep ih => exact ih.step hwork hstep

theorem Visited.laidOut (h : Visited document s) : LaidOut 0 s := by
  induction h with
  | start => exact LaidOut.start
  | step _ hwork hstep ih => exact ih.step hwork hstep

theorem run_ne_noOpenFrame (setup : Setup) (document : Fragment) :
    (run setup document).result ≠ .error .noOpenFrame := by
  obtain ⟨t, ht, ⟨_, hresult⟩ | ⟨task, rest, fault, hwork, hstep, hresult⟩⟩ :=
    exists_stop_of_run setup document
  · obtain ⟨p, hp⟩ := ht.laidOut.balanced.exists_result
    rw [hresult, hp]
    exact fun h => nomatch h
  · rw [hresult]
    rintro ⟨⟩
    exact ht.laidOut.step_ne_noOpenFrame hwork hstep

/-- A traversal that ends well has closed everything. -/
theorem exists_atRoot_of_run {p : Predicate} (hrun : (run setup document).result = .ok p) :
    ∃ s, Reachable setup document s ∧ s.work = [] ∧ s.AtRoot ∧ s.result = .ok p := by
  obtain ⟨s, hs, ⟨hdone, hresult⟩ | ⟨_, _, _, _, _, hresult⟩⟩ := exists_stop_of_run setup document
  · exact ⟨s, hs, hdone, hs.laidOut.balanced.atRoot hdone, hresult ▸ hrun⟩
  · rw [hresult] at hrun
    cases hrun

/-- Whatever the host answers from task to task, the pending work closes everything that is open
but the root frame, and nothing else; so the stack of frames never runs empty under any task, and
a traversal that ends well leaves nothing but the root frame behind. -/
theorem run_closes_what_it_opens (document : Fragment) :
    (∀ s, Visited document s → s.Balanced ∧ (s.work = [] → s.AtRoot) ∧
        ∀ setup task rest, s.work = task :: rest →
          (step setup s task rest).result ≠ .error .noOpenFrame) ∧
      ∀ setup, (∀ s, Reachable setup document s → Visited document s) ∧
        (run setup document).result ≠ .error .noOpenFrame ∧
        ∀ p, (run setup document).result = .ok p →
          ∃ s, Reachable setup document s ∧ s.work = [] ∧ s.AtRoot ∧ s.result = .ok p := by
  refine ⟨fun s hs => ?_, fun setup => ?_⟩
  · have hlaidOut := hs.laidOut
    exact ⟨hlaidOut.balanced, hlaidOut.balanced.atRoot,
      fun setup task rest hwork => hlaidOut.step_ne_noOpenFrame hwork⟩
  · exact ⟨fun s hs => hs.visited, run_ne_noOpenFrame setup document,
      fun p hrun => exists_atRoot_of_run hrun⟩

end Traversal

namespace Sample
open Traversal

def openSetup : Setup := ⟨catalog.schema, "Album", .ofOptions .empty⟩

/-- The same, but for a condition in the scopes on tracks. -/
def hidingSetup : Setup := ⟨catalog.schema, "Album", .ofOptions hidingOptions⟩

def nestedDocument : Fragment := [("$not", .ofEntries [("tracks.name", .text "x")])]

/-- At the comparison a key is open inside a scope, with a denial around both. -/
def nestedState : TraversalState where
  work := [.fragment [("$eq", .text "x")], .closePath, .closeFrame, .closeScope, .closePath,
    .closeFrame]
  paths := [⟨["name"], ["name"]⟩, ⟨["tracks"], ["tracks"]⟩]
  scopes := [⟨["tracks"], ["tracks"]⟩]
  frames := [⟨.related tracks ["tracks"], [shortTracks]⟩, ⟨.not, []⟩, ⟨.all, []⟩]

def nestedPredicate : Predicate :=
  .not (.related tracks ["tracks"]
    (.test ⟨"name", "Track", .scalar .text⟩ ["tracks", "name"] (.compare .eq (.text "x"))))

/-- The host has a condition when the scope is opened, and at no other task. -/
theorem visited_nestedState : Visited nestedDocument nestedState := by
  have hdenial : Visited nestedDocument
      ⟨[.fragment [("tracks.name", .text "x")], .closeFrame], [], [], [⟨.not, []⟩, ⟨.all, []⟩]⟩ :=
    @Visited.step _ openSetup _ _ _ _ .start rfl rfl
  have hcrossing : Visited nestedDocument
      ⟨[.fragment (.scope "name" (.text "x")), .closePath, .closeFrame],
        [⟨["tracks"], ["tracks"]⟩], [], [⟨.not, []⟩, ⟨.all, []⟩]⟩ :=
    @Visited.step _ openSetup _ _ _ _ hdenial rfl rfl
  have hscope : Visited nestedDocument
      ⟨[.fragment [("name", .text "x")], .closeFrame, .closeScope, .closePath, .closeFrame],
        [⟨["tracks"], ["tracks"]⟩], [⟨["tracks"], ["tracks"]⟩],
        [⟨.related tracks ["tracks"], [shortTracks]⟩, ⟨.not, []⟩, ⟨.all, []⟩]⟩ :=
    @Visited.step _ hidingSetup _ _ _ _ hcrossing rfl rfl
  exact @Visited.step _ openSetup _ _ _ _ hscope rfl rfl

theorem run_closes_what_it_opens_nested :
    Visited nestedDocument nestedState ∧ nestedState.Balanced ∧
      (step openSetup nestedState (.fragment [("$eq", .text "x")]) nestedState.work.tail).result ≠
        .error .noOpenFrame ∧
      (run openSetup nestedDocument).result = .ok nestedPredicate ∧
      ∃ s, Reachable openSetup nestedDocument s ∧ s.work = [] ∧ s.AtRoot ∧
        s.result = .ok nestedPredicate := by
  obtain ⟨hstates, hruns⟩ := run_closes_what_it_opens nestedDocument
  obtain ⟨hbalanced, _, hsteps⟩ := hstates nestedState visited_nestedState
  have hrun : (run openSetup nestedDocument).result = .ok nestedPredicate := by rfl
  exact ⟨visited_nestedState, hbalanced, hsteps openSetup _ _ rfl, hrun,
    (hruns openSetup).2.2 nestedPredicate hrun⟩

end Sample
end RowFilter
