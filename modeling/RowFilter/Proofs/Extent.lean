import RowFilter.Proofs.Layout
import RowFilter.Proofs.Operators

/-!
# The extent of compiled predicates

A limit on pending work is a limit on predicates. Whoever walks down a predicate that was
accepted under a limit comes through no more nodes than the limit allows tasks, and finds fewer
branches at every node, however wide or deep the document was.

The limit counts tasks and not nodes. What ties them is the room that is left for the nodes of a
frame: every frame on the stack has a closing task in the pending work, and takes one node of the
room around it, unless it has one child only and vanishes. Operators take up to three nodes at
once. There is room for these, since the keys and scopes that are open around an operator have
closing tasks too and take no room.
-/

namespace RowFilter

/-! ## Predicates in a room -/

namespace Predicate

def children : Predicate → List Predicate
  | .all ps | .any ps => ps
  | .not p | .related _ _ p => [p]
  | .test _ _ _ => []

/-- A path of nodes from a predicate down to a leaf. -/
inductive Branch : Predicate → List Predicate → Prop
  | leaf {p : Predicate} : p.children = [] → Branch p [p]
  | node {p q : Predicate} {nodes : List Predicate} :
      q ∈ p.children → Branch q nodes → Branch p (p :: nodes)

/-- No path has more nodes than there is room, and no node as many children as the limit. -/
inductive Fits (limit : Nat) : (room : Nat) → Predicate → Prop
  | all {room : Nat} {ps : List Predicate} : ps.length < limit → (∀ p ∈ ps, Fits limit room p) →
      Fits limit (room + 1) (.all ps)
  | any {room : Nat} {ps : List Predicate} : ps.length < limit → (∀ p ∈ ps, Fits limit room p) →
      Fits limit (room + 1) (.any ps)
  | not {room : Nat} {p : Predicate} : Fits limit room p → Fits limit (room + 1) (.not p)
  | related {room : Nat} {relation : RelationField} {path : Path} {p : Predicate} :
      Fits limit room p → Fits limit (room + 1) (.related relation path p)
  | test {room : Nat} {field : ScalarField} {path : Path} {c : Comparison} :
      Fits limit (room + 1) (.test field path c)

namespace Fits

variable {limit room larger : Nat} {p : Predicate} {ps : List Predicate}

theorem mono (h : p.Fits limit room) (hle : room ≤ larger) : p.Fits limit larger := by
  induction h generalizing larger with
  | all hlt _ ih =>
    obtain ⟨larger, rfl⟩ := Nat.exists_eq_add_one.mpr (Nat.lt_of_lt_of_le (Nat.succ_pos _) hle)
    exact .all hlt fun p hp => ih p hp (Nat.le_of_succ_le_succ hle)
  | any hlt _ ih =>
    obtain ⟨larger, rfl⟩ := Nat.exists_eq_add_one.mpr (Nat.lt_of_lt_of_le (Nat.succ_pos _) hle)
    exact .any hlt fun p hp => ih p hp (Nat.le_of_succ_le_succ hle)
  | not _ ih =>
    obtain ⟨larger, rfl⟩ := Nat.exists_eq_add_one.mpr (Nat.lt_of_lt_of_le (Nat.succ_pos _) hle)
    exact .not (ih (Nat.le_of_succ_le_succ hle))
  | related _ ih =>
    obtain ⟨larger, rfl⟩ := Nat.exists_eq_add_one.mpr (Nat.lt_of_lt_of_le (Nat.succ_pos _) hle)
    exact .related (ih (Nat.le_of_succ_le_succ hle))
  | test =>
    obtain ⟨larger, rfl⟩ := Nat.exists_eq_add_one.mpr (Nat.lt_of_lt_of_le (Nat.succ_pos _) hle)
    exact .test

theorem true (hpos : 0 < limit) : Predicate.true.Fits limit (room + 1) :=
  .all hpos fun _ hp => nomatch hp

theorem conjunction (hlt : ps.length < limit) (h : ∀ p ∈ ps, p.Fits limit room) :
    (Predicate.conjunction ps).Fits limit (room + 1) := by
  unfold Predicate.conjunction
  split
  · next p => exact (h p (List.mem_singleton_self p)).mono (Nat.le_succ room)
  · exact .all hlt h

theorem disjunction (hlt : ps.length < limit) (h : ∀ p ∈ ps, p.Fits limit room) :
    (Predicate.disjunction ps).Fits limit (room + 1) := by
  unfold Predicate.disjunction
  split
  · exact .true hlt
  · next p => exact (h p (List.mem_singleton_self p)).mono (Nat.le_succ room)
  · exact .any hlt h

/-- A conjunction of one child is that child and takes no room of its own. -/
theorem conjunction_single (hpos : 0 < limit) (hle : ps.length ≤ 1)
    (h : ∀ p ∈ ps, p.Fits limit (room + 1)) :
    (Predicate.conjunction ps).Fits limit (room + 1) := by
  rcases ps with _ | ⟨p, _ | ⟨q, ps⟩⟩
  · exact .true hpos
  · exact h p (List.mem_singleton_self p)
  · simp at hle

theorem disjunction_single (hpos : 0 < limit) (hle : ps.length ≤ 1)
    (h : ∀ p ∈ ps, p.Fits limit (room + 1)) :
    (Predicate.disjunction ps).Fits limit (room + 1) := by
  rcases ps with _ | ⟨p, _ | ⟨q, ps⟩⟩
  · exact .true hpos
  · exact h p (List.mem_singleton_self p)
  · simp at hle

theorem length_branch_le (h : p.Fits limit room) {nodes : List Predicate}
    (hbranch : p.Branch nodes) : nodes.length ≤ room := by
  induction hbranch generalizing room with
  | leaf => cases h <;> exact Nat.succ_le_succ (Nat.zero_le _)
  | node hq _ ih =>
    cases h with
    | all _ hps => exact Nat.succ_le_succ (ih (hps _ hq))
    | any _ hps => exact Nat.succ_le_succ (ih (hps _ hq))
    | not hp => exact Nat.succ_le_succ (ih (List.mem_singleton.mp hq ▸ hp))
    | related hp => exact Nat.succ_le_succ (ih (List.mem_singleton.mp hq ▸ hp))
    | test => cases hq

theorem length_children_lt (h : p.Fits limit room) {q : Predicate} (hq : q ∈ p.parts)
    (hcompound : q.isCompound = Bool.true) : q.children.length < limit := by
  induction h with
  | all hlt _ ih =>
    obtain rfl | ⟨p, hp, hq⟩ := mem_parts_all.mp hq
    · exact hlt
    · exact ih p hp hq
  | any hlt _ ih =>
    obtain rfl | ⟨p, hp, hq⟩ := mem_parts_any.mp hq
    · exact hlt
    · exact ih p hp hq
  | not _ ih =>
    obtain rfl | hq := mem_parts_not.mp hq
    · cases hcompound
    · exact ih hq
  | related _ ih =>
    obtain rfl | hq := mem_parts_related.mp hq
    · cases hcompound
    · exact ih hq
  | test =>
    rw [mem_parts_test.mp hq] at hcompound
    cases hcompound

end Fits
end Predicate

/-- An operator on a scalar field takes two nodes at most, and one on a relation three. -/
theorem Field.fits_of_evaluate {limit : Nat} (hpos : 0 < limit) {target : Field} {token : String}
    {operand : Value} {dataKey path : Path} {p : Predicate}
    (h : target.evaluate token operand dataKey path = .ok p) :
    p.Fits limit 2 ∨ (∃ relation, target = .relation relation) ∧ p.Fits limit 3 := by
  rcases Field.evaluate_eq_ok h with ⟨field, c, _, _, rfl | rfl⟩ | ⟨relation, rfl, rfl | rfl⟩
  · exact .inl .test
  · exact .inl (.not .test)
  · exact .inl (.related (.true hpos))
  · exact .inr ⟨⟨relation, rfl⟩, .not (.related (.true hpos))⟩

/-! ## Room in a frame -/

namespace Frame

variable {limit n m inside outside : Nat} {frame : Frame} {p : Predicate}

/-- With up to `n` more nodes that fit inside, the predicate of the frame fits outside. -/
def Accepts (limit n inside outside : Nat) (frame : Frame) : Prop :=
  ∀ ps : List Predicate, ps.length ≤ n → (∀ p ∈ ps, p.Fits limit inside) →
    (Frame.predicate ⟨frame.combinator, ps ++ frame.gathered⟩).Fits limit outside

theorem Accepts.mono (h : frame.Accepts limit n inside outside) (hle : m ≤ n) :
    frame.Accepts limit m inside outside :=
  fun ps hps => h ps (Nat.le_trans hps hle)

theorem Accepts.gather (h : frame.Accepts limit (n + 1) inside outside)
    (hp : p.Fits limit inside) :
    Accepts limit n inside outside { frame with gathered := p :: frame.gathered } := by
  intro ps hlength hps
  have hfits := h (ps ++ [p]) (by simpa using hlength) fun q hq => by
    obtain hq | hq := List.mem_append.mp hq
    · exact hps q hq
    · exact List.mem_singleton.mp hq ▸ hp
  simpa using hfits

theorem Accepts.fits (h : frame.Accepts limit n inside outside) :
    frame.predicate.Fits limit outside :=
  h [] (Nat.zero_le n) fun _ hp => nomatch hp

/-- A frame for a conjunction or a disjunction takes a node, unless it vanishes. -/
theorem exists_accepts {combinator : Combinator}
    (hcombinator : combinator = .all ∨ combinator = .any)
    (hlt : n < limit) (hroom : 0 < outside) :
    ∃ inside, outside ≤ inside + 1 ∧ (n ≤ 1 → inside = outside) ∧
      Accepts limit n inside outside ⟨combinator, []⟩ := by
  obtain ⟨room, rfl⟩ := Nat.exists_eq_add_one.mpr hroom
  have hpos : 0 < limit := Nat.lt_of_le_of_lt (Nat.zero_le n) hlt
  have hmem {ps : List Predicate} {k : Nat} (hps : ∀ p ∈ ps, p.Fits limit k) :
      ∀ p ∈ (ps ++ []).reverse, p.Fits limit k := by simpa using hps
  by_cases hle : n ≤ 1
  · refine ⟨room + 1, Nat.le_succ _, fun _ => rfl, fun ps hlength hps => ?_⟩
    have hlength' : (ps ++ []).reverse.length ≤ 1 := by
      simpa using Nat.le_trans hlength hle
    rcases hcombinator with rfl | rfl
    · exact .conjunction_single hpos hlength' (hmem hps)
    · exact .disjunction_single hpos hlength' (hmem hps)
  · refine ⟨room, Nat.le_refl _, fun h => absurd h hle, fun ps hlength hps => ?_⟩
    have hlength' : (ps ++ []).reverse.length < limit := by
      simpa using Nat.lt_of_le_of_lt hlength hlt
    rcases hcombinator with rfl | rfl
    · exact .conjunction hlength' (hmem hps)
    · exact .disjunction hlength' (hmem hps)

theorem accepts_not (hpos : 0 < limit) :
    Accepts limit 1 (inside + 1) (inside + 2) ⟨.not, []⟩ := by
  intro ps hlength hps
  rcases ps with _ | ⟨p, _ | ⟨q, ps⟩⟩
  · exact .not (.true hpos)
  · exact .not (hps p (List.mem_singleton_self p))
  · simp at hlength

/-- Without conditions there is one node at most behind a relation. -/
theorem accepts_related (hpos : 0 < limit) {relation : RelationField} {path : Path} :
    Accepts limit 1 (inside + 1) (inside + 2) ⟨.related relation path, []⟩ := by
  intro ps hlength hps
  refine .related (.conjunction_single hpos (by simpa using hlength) ?_)
  simpa using hps

end Frame

/-! ## Room in a state -/

namespace Traversal
open TraversalState Traced

variable {setup : Setup} {limit n m room : Nat} {work : List Task} {paths scopes : List OpenKey}
  {frames : List Frame} {f : Fragment} {s t : TraversalState}

/-- The open keys lead to a field. -/
def LeadsTo (setup : Setup) (paths : List OpenKey) (target : Field) : Prop :=
  ∃ steps, setup.schema.resolve setup.root (OpenKey.join paths.reverse).internal = .ok steps ∧
    leaf? steps = some target

theorem LeadsTo.ne_nil {target : Field} (h : LeadsTo setup paths target) : paths ≠ [] := by
  rintro rfl
  obtain ⟨_, hsteps, hleaf⟩ := h
  cases hsteps
  cases hleaf

/-- The open keys lead to no relation, or some scope is open. -/
def Ordinary (setup : Setup) (paths scopes : List OpenKey) : Prop :=
  scopes = [] → ∀ relation, ¬LeadsTo setup paths (.relation relation)

/-- At a relation that no scope is open on there are only scopes and questions of existence, and
for these there is room. -/
def Suits (setup : Setup) (room : Nat) (paths scopes : List OpenKey) (f : Fragment) : Prop :=
  Ordinary setup paths scopes ∨
    ∃ key value, f = [(key, value)] ∧ (key = "$elemMatch" ∨ key = "$exists" ∧ 3 ≤ room)

/-- Every frame has room for the nodes that are still to come to it. The numbers are those of the
innermost frame, for the work that is left. -/
inductive Spacious (setup : Setup) (limit : Nat) :
    (n room : Nat) → List Task → List OpenKey → List OpenKey → List Frame → Prop
  | done {n : Nat} {root : Frame} : root.combinator = .all → root.Accepts limit n limit limit →
      Spacious setup limit n limit [] [] [] [root]
  | fragment {n room : Nat} {f : Fragment} {work : List Task} {paths scopes : List OpenKey}
      {frames : List Frame} : Suits setup room paths scopes f →
      Spacious setup limit (n + 1) room work paths scopes frames →
      Spacious setup limit n room (.fragment f :: work) paths scopes frames
  | closePath {n room : Nat} {work : List Task} {paths scopes : List OpenKey}
      {frames : List Frame} : Spacious setup limit n room work paths.tail scopes frames →
      Spacious setup limit n room (.closePath :: work) paths scopes frames
  | closeScope {n room : Nat} {work : List Task} {paths scopes : List OpenKey}
      {frames : List Frame} : Spacious setup limit n room work paths scopes.tail frames →
      Spacious setup limit n room (.closeScope :: work) paths scopes frames
  | closeFrame {n inside outside : Nat} {work : List Task} {paths scopes : List OpenKey}
      {frame : Frame} {frames : List Frame} : frame.Accepts limit n inside outside →
      outside ≤ inside + 1 → Spacious setup limit 1 outside work paths scopes frames →
      Spacious setup limit n inside (.closeFrame :: work) paths scopes (frame :: frames)

namespace Spacious

theorem mono (h : Spacious setup limit n room work paths scopes frames) (hle : m ≤ n) :
    Spacious setup limit m room work paths scopes frames := by
  induction h generalizing m with
  | done hroot haccepts => exact .done hroot (haccepts.mono hle)
  | fragment hsuits _ ih => exact .fragment hsuits (ih (Nat.succ_le_succ hle))
  | closePath _ ih => exact .closePath (ih hle)
  | closeScope _ ih => exact .closeScope (ih hle)
  | closeFrame haccepts hroom hrest _ => exact .closeFrame (haccepts.mono hle) hroom hrest

theorem gather {frame : Frame} {p : Predicate} (hp : p.Fits limit room)
    (h : Spacious setup limit (n + 1) room work paths scopes (frame :: frames)) :
    Spacious setup limit n room work paths scopes
      ({ frame with gathered := p :: frame.gathered } :: frames) := by
  generalize hn : n + 1 = k at h
  generalize hframes : frame :: frames = stack at h
  induction h generalizing n with
  | done hroot haccepts =>
    cases hframes
    exact .done hroot (Frame.Accepts.gather (hn ▸ haccepts) hp)
  | fragment hsuits _ ih => exact .fragment hsuits (ih hp (by rw [hn]) hframes)
  | closePath _ ih => exact .closePath (ih hp hn hframes)
  | closeScope _ ih => exact .closeScope (ih hp hn hframes)
  | closeFrame haccepts hroom hrest _ =>
    cases hframes
    exact .closeFrame (Frame.Accepts.gather (hn ▸ haccepts) hp) hroom hrest

/-- Every frame but the root takes one node at most of the room. -/
theorem limit_lt (h : Spacious setup limit n room work paths scopes frames) :
    limit < room + frames.length := by
  induction h with
  | done => exact Nat.lt_succ_self limit
  | fragment _ _ ih => exact ih
  | closePath _ ih => exact ih
  | closeScope _ ih => exact ih
  | closeFrame _ hroom _ ih =>
    rw [List.length_cons]
    omega

theorem fragments {fs : List Fragment} (hsuits : ∀ f ∈ fs, Suits setup room paths scopes f)
    (h : Spacious setup limit (n + fs.length) room work paths scopes frames) :
    Spacious setup limit n room (fs.map .fragment ++ work) paths scopes frames := by
  induction fs generalizing n with
  | nil => exact h
  | cons f fs ih =>
    refine .fragment (hsuits f List.mem_cons_self) (ih ?_ ?_)
    · exact fun f hf => hsuits f (List.mem_cons_of_mem _ hf)
    · simpa [Nat.add_assoc, Nat.add_comm 1] using h

end Spacious

/-- There is room in a state for the nodes to come to its innermost frame. -/
def Roomy (setup : Setup) (limit n room : Nat) (s : TraversalState) : Prop :=
  Spacious setup limit n room s.work s.paths s.scopes s.frames

/-! ## Steps -/

/-- A state behind a fragment that was pending within the limit: it is laid out, and there is
room for the node of the fragment. -/
structure Next (setup : Setup) (limit room : Nat) (s : TraversalState) : Prop where
  within : s.work.length < limit
  laidOut : LaidOut 1 s
  roomy : Roomy setup limit 1 room s

namespace Next

variable (h : Next setup limit room s)
include h

theorem limit_pos : 0 < limit := Nat.lt_of_le_of_lt (Nat.zero_le _) h.within

/-- The closing tasks and the tasks to come leave as much room. -/
theorem le_room {more : Nat} (hmore : s.work.length + more ≤ limit) :
    s.paths.length + s.scopes.length + more ≤ room := by
  have hlayout := h.laidOut.length_le
  have hroom := h.roomy.limit_lt
  omega

theorem openFrame {inside : Nat} {combinator : Combinator} {fs : List Fragment}
    (haccepts : Frame.Accepts limit fs.length inside room ⟨combinator, []⟩)
    (hinside : room ≤ inside + 1) (hsuits : ∀ f ∈ fs, Suits setup inside s.paths s.scopes f) :
    Roomy setup limit 0 inside (s.openFrame ⟨combinator, []⟩ (fs.map .fragment)) :=
  .fragments hsuits (.closeFrame (by rwa [Nat.zero_add]) hinside h.roomy)

/-- A frame for a conjunction or a disjunction of documents. -/
theorem openCompound {combinator : Combinator} {fs : List Fragment}
    (hcombinator : combinator = .all ∨ combinator = .any)
    (hordinary : Ordinary setup s.paths s.scopes)
    (hlength : (s.openFrame ⟨combinator, []⟩ (fs.map .fragment)).work.length ≤ limit) :
    ∃ room, Roomy setup limit 0 room (s.openFrame ⟨combinator, []⟩ (fs.map .fragment)) := by
  simp only [TraversalState.openFrame, List.length_append, List.length_map, List.length_cons]
    at hlength
  have hlt : fs.length < limit := by omega
  have hroom : s.paths.length + s.scopes.length + 1 ≤ room := h.le_room h.within
  have hpos : 0 < room := by omega
  obtain ⟨inside, hinside, _, haccepts⟩ := Frame.exists_accepts hcombinator hlt hpos
  exact ⟨inside, h.openFrame haccepts hinside fun f _ => .inl hordinary⟩

/-- A frame with one document in it that takes a node in any case. -/
theorem openSingle {combinator : Combinator} {f : Fragment}
    (haccepts : ∀ inside, Frame.Accepts limit 1 (inside + 1) (inside + 2) ⟨combinator, []⟩)
    (hordinary : Ordinary setup s.paths s.scopes)
    (hlength : (s.openFrame ⟨combinator, []⟩ [.fragment f]).work.length ≤ limit) :
    ∃ room, Roomy setup limit 0 room (s.openFrame ⟨combinator, []⟩ [.fragment f]) := by
  simp only [TraversalState.openFrame, List.length_append, List.length_cons, List.length_nil]
    at hlength
  have htwo : s.work.length + 2 ≤ limit := by omega
  have hroom := h.le_room htwo
  obtain ⟨inside, rfl⟩ := Nat.exists_eq_add_of_le (Nat.le_trans (Nat.le_add_left 2 _) hroom)
  have haccepts' : Frame.Accepts limit [f].length (inside + 1) (2 + inside) ⟨combinator, []⟩ := by
    rw [Nat.add_comm 2]
    exact haccepts inside
  exact ⟨inside + 1, h.openFrame haccepts' (by omega) fun f _ => .inl hordinary⟩

end Next

section Reading

variable (h : Next setup limit room s) {value : Value}
include h

theorem Next.gather {p : Predicate} (hp : p.Fits limit room) (ht : s.gather p = .ok t) :
    Roomy setup limit 0 room t := by
  obtain ⟨work, paths, scopes, frames⟩ := s
  obtain ⟨frame, outer, rfl⟩ := h.laidOut.exists_frame
  cases ht
  exact h.roomy.gather hp

/-- A new scope is on the stack as the keys around it are, with a closing task. -/
theorem Next.openScope (hopen : s.hasOpenField = true)
    (hlength : s.openScope.work.length < limit) : Next setup limit room s.openScope :=
  ⟨hlength, h.laidOut.openScope hopen, .closeScope h.roomy⟩

/-- There is room for what an operator comes to. -/
theorem Next.fits_of_evaluate {token : String} {op : FieldOperator} {target : Field}
    {p : Predicate} (htoken : FieldOperator.ofToken? token = some op)
    (htarget : (openField? setup s).result = .ok (some target))
    (hp : target.evaluate token value s.openKey.external s.openKey.internal.strip = .ok p)
    (hsuits : Suits setup room s.paths s.scopes [(token, value)]) : p.Fits limit room := by
  have hleads : LeadsTo setup s.paths target := by
    obtain ⟨steps, hsteps, hleaf⟩ := bind_result_eq_ok_iff.mp htarget
    exact ⟨steps, ok_of_mapError hsteps, Except.ok.inj hleaf⟩
  have hpaths := List.length_pos_iff.mpr hleads.ne_nil
  have hroom : s.paths.length + s.scopes.length + 1 ≤ room := h.le_room h.within
  obtain hfits | ⟨⟨relation, rfl⟩, hfits⟩ := Field.fits_of_evaluate h.limit_pos hp
  · exact hfits.mono (by omega)
  · by_cases hscopes : s.scopes = []
    · obtain hordinary | ⟨key, value', heq, hkey⟩ := hsuits
      · exact absurd hleads (hordinary hscopes relation)
      · cases heq
        rcases hkey with rfl | ⟨_, hthree⟩
        · have hnone : FieldOperator.ofToken? "$elemMatch" = none := by decide +kernel
          rw [hnone] at htoken
          cases htoken
        · exact hfits.mono hthree
    · have := List.length_pos_iff.mpr hscopes
      exact hfits.mono (by omega)

/-! ## Field keys -/

omit h in
/-- A key that crosses no relation leads to none. -/
theorem ordinary_openPath {key : OpenKey} {steps : List Step} (hpaths : s.paths = s.scopes)
    (hsteps : setup.schema.resolve setup.root (s.openKey.internal ++ key.internal) = .ok steps)
    (hfind : (crossings steps).find? (s.openKey.internal.length ≤ ·) = none) :
    Ordinary setup (s.openPath key []).paths s.scopes := by
  rintro hscopes relation ⟨steps', hsteps', hleaf⟩
  have hnil : s.openKey = ⟨[], []⟩ := by
    rw [openKey, hpaths, hscopes]
    rfl
  have hjoin : (OpenKey.join (s.openPath key []).paths.reverse).internal = key.internal := by
    simp [TraversalState.openPath, hpaths, hscopes, OpenKey.join]
  rw [hnil, List.nil_append] at hsteps
  rw [hjoin, hsteps, Except.ok.injEq] at hsteps'
  subst hsteps'
  obtain ⟨before, step, rfl, hfield⟩ := Schema.leaf?_eq_some hleaf
  have hcrossing : before.length ∈ crossings (before ++ [step]) :=
    mem_crossings.mpr ⟨step, by simp, Step.crosses_iff.mpr ⟨relation, hfield⟩⟩
  have := List.find?_eq_none.mp hfind _ hcrossing
  simp [hnil] at this

theorem Next.openPath (hopen : s.hasOpenField = false) (key : OpenKey)
    (hlength : (s.openPath key []).work.length < limit) :
    Next setup limit room (s.openPath key []) :=
  ⟨hlength, h.laidOut.openPath hopen key, .closePath h.roomy⟩

/-- The frame of a bare relation key has room for three nodes. If it holds more than one
fragment, they were all pending together, and otherwise it vanishes. -/
theorem Next.exists_room_onRelation (hopen : s.hasOpenField = false) (key : OpenKey)
    {f : Fragment} (hne : f ≠ [])
    (hlength : ((s.openPath key []).openFrame ⟨.all, []⟩
      ((f.map Fragment.onRelation).map .fragment)).work.length ≤ limit) :
    ∃ room, Roomy setup limit 0 room ((s.openPath key []).openFrame ⟨.all, []⟩
      ((f.map Fragment.onRelation).map .fragment)) := by
  have hpos := List.length_pos_iff.mpr hne
  simp only [TraversalState.openFrame, List.length_append, List.length_map, List.length_cons]
    at hlength
  have hpath := h.openPath hopen key (by omega)
  have hmore : (s.openPath key []).work.length + (f.length + 1) ≤ limit := by omega
  have hroom := hpath.le_room hmore
  have hlt : f.length < limit := by omega
  have hpos : 0 < room := by omega
  obtain ⟨inside, hinside, hsingle, haccepts⟩ :=
    Frame.exists_accepts (.inl (Eq.refl Combinator.all)) hlt hpos
  rw [← List.length_map Fragment.onRelation] at haccepts
  have hthree : 3 ≤ inside := by
    have hpaths : 0 < (s.openPath key []).paths.length := Nat.succ_pos _
    by_cases hone : f.length ≤ 1
    · have := hsingle hone
      omega
    · omega
  refine ⟨inside, hpath.openFrame haccepts hinside fun e he => .inr ?_⟩
  obtain ⟨⟨key, value⟩, _, rfl⟩ := List.mem_map.mp he
  unfold Fragment.onRelation
  split
  · next hkey => exact ⟨key, value, rfl, hkey.imp_right fun hexists => ⟨hexists, hthree⟩⟩
  · exact ⟨_, _, rfl, .inl rfl⟩

theorem Next.exists_room_entered {key inner : Path} {steps : List Step}
    (hpasses : Passes setup s key inner steps)
    (hentered : Entered s ⟨key, inner⟩ value (crossings steps) t)
    (hlength : t.work.length ≤ limit) : ∃ room, Roomy setup limit 0 room t := by
  have hpushed {key : OpenKey} {f : Fragment}
      (hsuits : Suits setup room (s.openPath key []).paths s.scopes f) :
      Roomy setup limit 0 room (s.openPath key [.fragment f]) :=
    .fragment hsuits (.closePath h.roomy)
  cases hentered with
  | whole hfind =>
    exact ⟨room, hpushed (.inl (ordinary_openPath (h.laidOut.paths_eq hpasses.closed)
      hpasses.resolved hfind))⟩
  | relation _ _ _ _ hne => exact h.exists_room_onRelation hpasses.closed _ hne hlength
  | split => exact ⟨room, hpushed (.inr ⟨_, _, rfl, .inl rfl⟩)⟩

/-! ## Fragments -/

omit h in
/-- Whatever else is read at a relation has a scope around it. -/
theorem ordinary_of_suits (hsuits : Suits setup room s.paths s.scopes f)
    (hmatch : ∀ value, f ≠ [("$elemMatch", value)])
    (hexists : ∀ value, f ≠ [("$exists", value)]) : Ordinary setup s.paths s.scopes := by
  obtain hordinary | ⟨key, value, rfl, rfl | ⟨rfl, _⟩⟩ := hsuits
  · exact hordinary
  · exact absurd rfl (hmatch value)
  · exact absurd rfl (hexists value)

omit h in
theorem ordinary_of_ofText {key : String}
    (hsuits : Suits setup room s.paths s.scopes [(key, value)])
    (hmatch : DocumentKey.ofText key ≠ .elemMatch)
    (hexists : DocumentKey.ofText key ≠ .operator "$exists") :
    Ordinary setup s.paths s.scopes := by
  refine ordinary_of_suits hsuits ?_ ?_
  · rintro _ heq
    cases heq
    exact hmatch (by decide +kernel)
  · rintro _ heq
    cases heq
    exact hexists (by decide +kernel)

/-- A fragment that is read within the limit leaves room in every frame. -/
theorem Next.exists_room_performed (hconditions : setup.policies.NoConditions)
    (hsuits : Suits setup room s.paths s.scopes f)
    (hperformed : Performed setup s (.fragment f) t) (hlength : t.work.length ≤ limit) :
    ∃ room, Roomy setup limit 0 room t := by
  cases hperformed with
  | nothing => exact ⟨room, h.roomy.mono (Nat.zero_le 1)⟩
  | entries htwo =>
    refine h.openCompound (.inl rfl) (ordinary_of_suits hsuits ?_ ?_) hlength
    · rintro _ rfl
      simp at htwo
    · rintro _ rfl
      simp at htwo
  | all hkey _ =>
    exact h.openCompound (.inl rfl)
      (ordinary_of_ofText hsuits (by simp [hkey]) (by simp [hkey])) hlength
  | any hkey _ =>
    exact h.openCompound (.inr rfl)
      (ordinary_of_ofText hsuits (by simp [hkey]) (by simp [hkey])) hlength
  | none hkey _ =>
    exact h.openSingle (fun _ => Frame.accepts_not h.limit_pos)
      (ordinary_of_ofText hsuits (by simp [hkey]) (by simp [hkey])) hlength
  | not hkey _ =>
    exact h.openSingle (fun _ => Frame.accepts_not h.limit_pos)
      (ordinary_of_ofText hsuits (by simp [hkey]) (by simp [hkey])) hlength
  | elemMatch _ hopen _ _ hread =>
    rw [hconditions _ _ hread] at hlength ⊢
    have hscope : Next setup limit room s.openScope := by
      refine h.openScope hopen ?_
      simp only [TraversalState.openFrame, List.length_append, List.length_cons] at hlength
      omega
    exact hscope.openSingle (fun _ => Frame.accepts_related h.limit_pos)
      (fun hnil => absurd hnil (List.cons_ne_nil _ _)) hlength
  | operator _ htoken htarget hp hgather =>
    exact ⟨room, h.gather (h.fits_of_evaluate htoken htarget hp hsuits) hgather⟩
  | field _ hpasses hentered => exact h.exists_room_entered hpasses hentered hlength

end Reading

/-- A task that is carried out within the limit leaves room in every frame. -/
theorem Performed.exists_room (hconditions : setup.policies.NoConditions) {task : Task}
    {rest : List Task} (hwork : s.work = task :: rest) (hlength : s.work.length ≤ limit)
    (hlaidOut : LaidOut 0 s) (h : Roomy setup limit 0 room s)
    (hperformed : Performed setup { s with work := rest } task t)
    (hleft : t.work.length ≤ limit) : ∃ room, Roomy setup limit 0 room t := by
  obtain ⟨work, paths, scopes, frames⟩ := s
  cases hwork
  dsimp only [LaidOut, Roomy] at hlaidOut h
  cases h with
  | fragment hsuits h =>
    cases hlaidOut with
    | fragment hlaidOut =>
      have hnext : Next setup limit room ⟨rest, paths, scopes, frames⟩ := ⟨hlength, hlaidOut, h⟩
      exact hnext.exists_room_performed hconditions hsuits hperformed hleft
  | closePath h =>
    cases hperformed
    exact ⟨room, h⟩
  | closeScope h =>
    cases hperformed
    exact ⟨room, h⟩
  | @closeFrame _ _ outside _ _ _ frame outer haccepts _ h =>
    cases hlaidOut with
    | closeFrame _ hlaidOut =>
      cases hperformed with
      | closeFrame hclose =>
        have hnext : Next setup limit outside ⟨rest, paths, scopes, outer⟩ :=
          ⟨hlength, hlaidOut, h⟩
        exact ⟨outside, hnext.gather haccepts.fits hclose⟩

/-! ## Runs -/

section Runs

variable {document : Fragment} {p : Predicate} (hlimit : setup.policies.limit = some limit)
  (hrun : (run setup document).result = .ok p)
include hlimit hrun

/-- A traversal that ends well passes the limit at every check. -/
theorem Reachable.length_le (h : Reachable setup document s) : s.work.length ≤ limit := by
  cases hwork : s.work with
  | nil => exact Nat.zero_le limit
  | cons task rest =>
    obtain ⟨t, hstep⟩ := h.exists_step hrun hwork
    obtain ⟨_, hwithin, _⟩ := bind_result_eq_ok_iff.mp hstep
    rw [ofExcept_result, withinLimit, hlimit] at hwithin
    dsimp only at hwithin
    split at hwithin
    · cases hwithin
    · next hle =>
      rw [← hwork]
      exact Nat.not_lt.mp hle

theorem Reachable.exists_roomy (hconditions : setup.policies.NoConditions)
    (h : Reachable setup document s) : ∃ room, Roomy setup limit 0 room s := by
  have hpos : 0 < limit := Reachable.length_le hlimit hrun .start
  induction h with
  | start =>
    refine ⟨limit, .fragment (.inl fun _ _ hleads => hleads.ne_nil rfl) (.done rfl ?_)⟩
    intro ps hlength hps
    obtain ⟨room, rfl⟩ := Nat.exists_eq_add_one.mpr hpos
    exact .conjunction_single hpos (by simpa using hlength) (by simpa using hps)
  | @step s t task rest hs hwork hstep ih =>
    obtain ⟨room, hroomy⟩ := ih
    exact (step_eq_ok_iff.mp hstep).2.exists_room hconditions hwork (hs.length_le hlimit hrun)
      hs.laidOut hroomy (Reachable.length_le hlimit hrun (hs.step hwork hstep))

theorem fits_of_run (hconditions : setup.policies.NoConditions) : p.Fits limit limit := by
  obtain ⟨t, ht, ⟨hdone, hresult⟩ | ⟨_, _, fault, _, _, hresult⟩⟩ :=
    exists_stop_of_run setup document
  · rw [hrun] at hresult
    obtain ⟨room, hroomy⟩ := ht.exists_roomy hlimit hrun hconditions
    obtain ⟨work, paths, scopes, frames⟩ := t
    cases hdone
    cases hroomy with
    | @done _ root hroot haccepts =>
      have hfits := haccepts.fits
      rw [Frame.predicate, hroot] at hfits
      rw [Except.ok.inj hresult]
      exact hfits
  · rw [hresult] at hrun
    cases hrun

end Runs
end Traversal

/-! ## Compiled predicates -/

section Compiled
variable {schema : Schema} {root : String} {document : Value} {options : OptionsArgument}
  {policies : Policies} {limit : Nat} {p : Predicate}

/-- A predicate that was accepted under a limit, without conditions from the host, has no more
nodes on a path to a leaf than the limit allows tasks, and fewer children at every conjunction and
disjunction. -/
theorem compiled_extent_le_limit (hpolicies : Policies.resolve options = .ok policies)
    (hlimit : policies.limit = some limit) (hconditions : policies.NoConditions)
    (h : (compile schema root document options).result = .ok (some p)) :
    (∀ nodes, p.Branch nodes → nodes.length ≤ limit) ∧
      ∀ q ∈ p.parts, q.isCompound = true → q.children.length ≤ limit - 1 := by
  obtain ⟨f, _, hrun⟩ := Setup.exists_run_of_compile (yields_of_compile hpolicies h)
  let setup : Setup := ⟨schema, root, policies⟩
  have hfits : p.Fits limit limit :=
    Traversal.fits_of_run (show setup.policies.limit = some limit from hlimit) hrun.result
      hconditions
  refine ⟨fun nodes hnodes => hfits.length_branch_le hnodes, fun q hq hcompound => ?_⟩
  exact Nat.le_sub_one_of_lt (hfits.length_children_lt hq hcompound)

end Compiled

namespace Sample

/-- Four tasks are pending when the question of existence comes up, and there are four nodes on
the path to the end of what it becomes. -/
def tightDocument : Value := .ofEntries
  [("title", .text "x"), ("tracks", .ofEntries [("$exists", .bool false)])]

def tightOptions : Options := Options.empty.limitedTo (.ofNat 4)

def tightPredicate : Predicate :=
  .all [.test ⟨"title", "Album", .scalar .text⟩ ["title"] (.compare .eq (.text "x")),
    .not (.related tracks ["tracks"] .true)]

theorem compiled_extent_le_limit_tight :
    Policies.resolve (.settings tightOptions) = .ok (.ofOptions tightOptions) ∧
      (Policies.ofOptions tightOptions).limit = some 4 ∧
      (Policies.ofOptions tightOptions).NoConditions ∧
      (compile catalog.schema "Album" tightDocument (.settings tightOptions)).result =
        .ok (some tightPredicate) ∧
      (∀ nodes, tightPredicate.Branch nodes → nodes.length ≤ 4) ∧
      ∀ q ∈ tightPredicate.parts, q.isCompound = true → q.children.length ≤ 3 := by
  have hpolicies : Policies.resolve (.settings tightOptions) = .ok (.ofOptions tightOptions) := rfl
  have hlimit : (Policies.ofOptions tightOptions).limit = some 4 := by decide +kernel
  have hconditions : (Policies.ofOptions tightOptions).NoConditions :=
    Policies.noConditions_of_none rfl
  have hcompile : (compile catalog.schema "Album" tightDocument (.settings tightOptions)).result =
      .ok (some tightPredicate) := by rfl
  exact ⟨hpolicies, hlimit, hconditions, hcompile,
    compiled_extent_le_limit hpolicies hlimit hconditions hcompile⟩

end Sample
end RowFilter
