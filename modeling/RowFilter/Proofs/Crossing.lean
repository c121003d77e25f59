import RowFilter.Proofs.Rebase

/-!
# Keys that begin with a relation

A key that begins with the name of a relation is the rest of the key in a scope on the relation.
This holds of the outcome as a whole: whatever the rest of the key is refused for, the whole key
is refused for in the same words. So it makes no difference whether a document writes a relation
into the key of a field, gives it a document of its own, or opens the scope in so many words.
-/

namespace RowFilter

theorem DocumentKey.head_dotted {r k : String}
    (h : r.toList ≠ [] ∧ r.toList.head? ≠ some '$') :
    (r ++ "." ++ k).toList.head? ≠ some '$' := by
  obtain ⟨c, cs, hchars⟩ := List.exists_cons_of_ne_nil h.1
  have hc := h.2
  rw [hchars] at hc
  simpa [hchars] using hc

/-- A place at which a document asks about the fields of a model: the root, or in a scope behind
relations. Every walk to a field of the model begins with the same steps. -/
structure Place.IsOn (schema : Schema) (root : String) (place : Place) (owner : String) :
    Prop where
  closed : place.isField = false
  untranslated : place.key.internal = place.key.external
  safe : ∀ segment ∈ place.key.external, Path.IsSafe segment
  plain : ∀ segment ∈ place.key.external, Path.IsPlain segment
  walks : ∃ before : List Step, before.length = place.key.external.length ∧
    ∀ name f, schema.field? owner name = some f → Path.isIndex name = false →
      ∀ rest, schema.walk root none (place.key.external ++ name :: rest) =
        (schema.walk owner (some f) rest).map (before ++ ⟨name, some f, owner⟩ :: ·)

theorem Place.IsOn.root (schema : Schema) (owner : String) : IsOn schema owner .root owner where
  closed := rfl
  untranslated := rfl
  safe _ h := nomatch h
  plain _ h := nomatch h
  walks := ⟨[], rfl, fun _ _ hfield hindex _ => Schema.walk_cons_eq_map rfl hindex hfield⟩

/-- The place in a scope on a relation. -/
def Place.behind (place : Place) (name : String) : Place := (place.enter ⟨[name], [name]⟩).inScope

theorem Place.behind_external (place : Place) (name : String) :
    (place.behind name).key.external = place.key.external ++ [name] := rfl

namespace Outline
open Traced

variable {schema : Schema} {root owner r : String} {relation : RelationField}
  {policies : Policies} {place : Place} {value : Value} {inside onRelation : Place → Traced Outline}

/-- A path through the relation names something. -/
theorem text_behind_ne_empty (hr : schema.Relates owner r relation) (key : Path) :
    (place.key.external ++ r :: key).strip.text ≠ "" := by
  rw [Path.strip_append, strip_cons hr]
  exact Path.text_append_ne_empty hr.safe.ne_empty _ _

/-- A key is checked and resolved, and then opened. Nothing else can refuse it, unless it names
nothing but list indices. -/
theorem ofKey_result (hplace : place.IsOn schema root owner) (hp : policies.Unrestricted)
    {key : Path} (hne : key ≠ [])
    (hplain : ∀ segment ∈ key, Path.IsPlain segment)
    (hnames : (place.key.external ++ key).strip.text ≠ "") :
    (ofKey ⟨schema, root, policies⟩ value inside onRelation key place).result = (do
      key.check (place.key.external ++ key)
      let steps ← schema.locate root (place.key.external ++ key) (place.key.external ++ key)
      (ofOpened ⟨schema, root, policies⟩ value inside onRelation ⟨key, key⟩ steps
        place).result.map (.field (place.key.external ++ key).strip)) := by
  rw [ofKey_eq_ofOpened]
  cases hcheck : key.check (place.key.external ++ key) with
  | error fault => exact bind_result_of_error hcheck
  | ok _ =>
    have hnamed : (Traversal.innerKey ⟨schema, root, policies⟩ key (place.key.external ++ key)
        value).result = .ok key :=
      innerKey_of_untranslated hp.translator hne
        (List.forall_mem_append.mpr ⟨hplace.plain, hplain⟩)
    have hallowed : (policies.isWhitelisted schema root
        (place.key.internal ++ key).strip).result = .ok true := by
      rw [Policies.isWhitelisted, hp.whitelist, hplace.untranslated]
      exact congrArg Except.ok (decide_eq_true hnames)
    rw [bind_result_of_ok hcheck, bind_result_of_ok hnamed, bind_result_of_ok hallowed,
      Bool.not_true, if_neg Bool.false_ne_true, hplace.closed, if_neg Bool.false_ne_true,
      hplace.untranslated]
    cases hlocate : schema.locate root (place.key.external ++ key) (place.key.external ++ key) with
    | error fault => exact bind_result_of_error hlocate
    | ok steps =>
      have hresolve : (Traversal.resolve ⟨schema, root, policies⟩ (place.key.external ++ key)
          (place.key.external ++ key)).result = .ok steps := hlocate
      rw [bind_result_of_ok hresolve]
      exact return_result _ _

theorem path_behind (hr : schema.Relates owner r relation) (place : Place) :
    (place.behind r).path = place.path ++ [r] := by
  have hstrip : Path.strip [r] = [r] := strip_cons hr []
  show (place.key.internal ++ [r]).strip = _
  rw [Path.strip_append, hstrip]
  rfl

theorem ofEntry_of_field {setup : Setup} {k : String} (h : DocumentKey.ofText k = .field k)
    (v : Value) (place : Place) : ofEntry setup (k, v) place =
      ofKey setup v (ofValue setup (ofOperator setup "$eq" v) v) (ofRelationValue setup v)
        (.ofText k) place := by
  rw [ofEntry, h]

section Relation
variable (hplace : place.IsOn schema root owner) (hr : schema.Relates owner r relation)
include hplace hr

theorem isOn_behind : (place.behind r).IsOn schema root relation.target := by
  obtain ⟨before, hlength, hwalks⟩ := hplace.walks
  refine ⟨rfl, congrArg (· ++ [r]) hplace.untranslated, ?_, ?_,
    before ++ [⟨r, some (.relation relation), owner⟩], ?_, ?_⟩
  · exact List.forall_mem_append.mpr ⟨hplace.safe, List.forall_mem_singleton.mpr hr.safe⟩
  · exact List.forall_mem_append.mpr ⟨hplace.plain, List.forall_mem_singleton.mpr hr.plain⟩
  · rw [Place.behind_external, List.length_append, List.length_append, hlength]
    rfl
  · intro name f hfield hindex rest
    rw [Place.behind_external, List.append_assoc, List.singleton_append,
      hwalks r _ hr.found (isIndex_of_relates hr), Schema.walk_cons_eq_map rfl hindex hfield]
    cases schema.walk relation.target (some f) rest with
    | error u => rfl
    | ok tail => exact congrArg Except.ok (by simp)

/-- The place of a relation leads to it. -/
theorem resolve_relation : ∃ before : List Step,
    before.length = place.key.external.length ∧
    schema.resolve root (place.key.external ++ [r]) =
      .ok (before ++ [⟨r, some (.relation relation), owner⟩]) := by
  obtain ⟨before, hlength, hwalks⟩ := hplace.walks
  have hsafe : ∀ segment ∈ place.key.external ++ [r], Path.IsSafe segment :=
    (isOn_behind hplace hr).safe
  refine ⟨before, hlength, Schema.resolve_of_walk hsafe ?_ (f := .relation relation) ?_⟩
  · rw [hwalks r _ hr.found (isIndex_of_relates hr) []]
    rfl
  · simp [leaf?]

/-- A key that begins with the name of the relation crosses nothing before it. -/
theorem find?_crossings_behind {key : Path} {steps : List Step}
    (hsafe : ∀ segment ∈ key, Path.IsSafe segment)
    (h : schema.resolve root (place.key.external ++ r :: key) = .ok steps) :
    (crossings steps).find? (place.key.external.length ≤ ·) = some place.key.external.length := by
  obtain ⟨before, hlength, hwalks⟩ := hplace.walks
  have hwalk := Schema.walk_of_resolve h
    (Path.isRoot_append (List.cons_ne_nil _ _) (List.forall_mem_cons.mpr ⟨hr.safe, hsafe⟩))
  rw [hwalks r _ hr.found (isIndex_of_relates hr)] at hwalk
  cases htail : schema.walk owner (some (.relation relation)) key with
  | error u =>
    rw [htail] at hwalk
    cases hwalk
  | ok tail =>
    rw [htail] at hwalk
    cases hwalk
    rw [← hlength]
    exact find?_crossings_append rfl before tail

variable (hp : policies.Unrestricted)
include hp

/-- A scope on the relation comes to what is read in it, also where that is refused. -/
theorem ofScope_result (value : Value) (body : Place → Traced Outline) :
    (ofScope ⟨schema, root, policies⟩ value body (place.enter ⟨[r], [r]⟩)).result =
      (body (place.behind r)).result.map
        (.scope relation (place.behind r).path []) := by
  obtain ⟨before, _, hresolve⟩ := resolve_relation hplace hr
  have htarget : (fieldAt? ⟨schema, root, policies⟩ (place.enter ⟨[r], [r]⟩)).result =
      .ok (some (.relation relation)) := by
    refine bind_result_eq_ok_iff.mpr ⟨before ++ [⟨r, some (.relation relation), owner⟩], ?_, ?_⟩
    · show (schema.resolve root (place.key.internal ++ [r])).mapError _ = _
      rw [hplace.untranslated, hresolve]
      rfl
    · exact congrArg Except.ok (by simp [leaf?])
  have hconditions : (policies.conditionsFor (place.enter ⟨[r], [r]⟩).path).result = .ok [] := by
    rw [Policies.conditionsFor, hp.conditions]
    rfl
  rw [ofScope, bind_result_of_ok htarget]
  dsimp only
  rw [bind_result_of_ok hconditions, bind_result_of_ok (x := Traced.log _ _) rfl]
  exact return_result _ _

/-- What stands behind the name of the relation is read on the related model. -/
theorem ofOpened_behind {key : Path} {steps : List Step}
    (hsafe : ∀ segment ∈ key, Path.IsSafe segment)
    (h : schema.resolve root (place.key.external ++ r :: key) = .ok steps) :
    (ofOpened ⟨schema, root, policies⟩ value inside onRelation ⟨r :: key, r :: key⟩ steps
        place).result =
      if key = [] then (onRelation (place.enter ⟨[r], [r]⟩)).result
      else (ofKey ⟨schema, root, policies⟩ value inside onRelation key
          (place.behind r)).result.map
        (.scope relation (place.behind r).path []) := by
  have hfind := find?_crossings_behind hplace hr hsafe h
  unfold ofOpened
  rw [hplace.untranslated, hfind]
  simp only [Nat.sub_self, Nat.zero_add, List.take_succ_cons, List.take_zero,
    List.drop_succ_cons, List.drop_zero]
  cases key with
  | nil => rfl
  | cons first rest => exact ofScope_result hplace hr hp _ _

/-- A key that is the name of the relation comes to what its value comes to there. -/
theorem ofKey_relation_result :
    (ofKey ⟨schema, root, policies⟩ value inside onRelation [r] place).result =
      (onRelation (place.enter ⟨[r], [r]⟩)).result.map
        (.field (place.key.external ++ [r]).strip) := by
  obtain ⟨before, _, hresolve⟩ := resolve_relation hplace hr
  have hcheck : Path.check [r] (place.key.external ++ [r]) = .ok () :=
    (Path.check_eq_ok_iff _ _).mpr (List.forall_mem_singleton.mpr hr.safe)
  rw [ofKey_result hplace hp (List.cons_ne_nil _ _) (List.forall_mem_singleton.mpr hr.plain)
    (text_behind_ne_empty hr []), hcheck, Schema.locate, hresolve]
  show (ofOpened ⟨schema, root, policies⟩ value inside onRelation ⟨[r], [r]⟩ _ place).result.map _ =
    _
  rw [ofOpened_behind hplace hr hp (List.forall_mem_nil _) hresolve, if_pos rfl]

/-- A key that begins with the name of the relation comes to a scope around what the rest comes
to behind the relation, and is refused if and as the rest is. -/
theorem ofKey_crossing {key : Path} (hne : key ≠ [])
    (hplain : ∀ segment ∈ key, Path.IsPlain segment) :
    (ofKey ⟨schema, root, policies⟩ value inside onRelation (r :: key) place).result =
      (ofKey ⟨schema, root, policies⟩ value inside onRelation key
          (place.behind r)).result.map fun o =>
        .field (place.key.external ++ r :: key).strip
          (.scope relation (place.behind r).path [] o) := by
  have hnames : (place.key.external ++ r :: key).strip.text ≠ "" := text_behind_ne_empty hr key
  have hsame : (place.behind r).key.external ++ key = place.key.external ++ r :: key := by
    rw [Place.behind_external, List.append_assoc, List.singleton_append]
  have hcheck : Path.check (r :: key) (place.key.external ++ r :: key) =
      key.check (place.key.external ++ r :: key) := by
    have hproblem : Path.problem? (r :: key) = key.problem? := by
      rw [Path.problem?, List.findSome?_cons, hr.safe]
      rfl
    rw [Path.check, Path.check, hproblem]
  have hrest := @ofKey_result _ _ _ _ _ value inside onRelation (isOn_behind hplace hr) hp key hne
    hplain (hsame ▸ hnames)
  rw [hsame] at hrest
  rw [ofKey_result hplace hp (List.cons_ne_nil _ _) (List.forall_mem_cons.mpr ⟨hr.plain, hplain⟩)
    hnames, hcheck]
  cases hsafe : key.check (place.key.external ++ r :: key) with
  | error fault =>
    rw [hrest, hsafe]
    rfl
  | ok _ =>
    cases hlocate : schema.locate root (place.key.external ++ r :: key)
        (place.key.external ++ r :: key) with
    | error fault =>
      rw [hrest, hsafe, hlocate]
      rfl
    | ok steps =>
      show (ofOpened ⟨schema, root, policies⟩ value inside onRelation ⟨r :: key, r :: key⟩ steps
        place).result.map _ = _
      rw [ofOpened_behind hplace hr hp ((Path.check_eq_ok_iff _ _).mp hsafe)
        (ok_of_mapError hlocate), if_neg hne]
      cases (ofKey ⟨schema, root, policies⟩ value inside onRelation key (place.behind r)).result <;>
        rfl

/-! ## Entries -/

/-- A field key behind the name of the relation and a point is a scope around the field key by
itself. -/
theorem ofEntry_dotted {k : String} (hk : k.toList.head? ≠ some '$') (v : Value) :
    (ofEntry ⟨schema, root, policies⟩ (r ++ "." ++ k, v) place).result =
      (ofEntry ⟨schema, root, policies⟩ (k, v) (place.behind r)).result.map fun o =>
        .field (place.key.external ++ r :: Path.ofText k).strip
          (.scope relation (place.behind r).path [] o) := by
  rw [ofEntry_of_field (DocumentKey.ofText_of_head hk),
    ofEntry_of_field (DocumentKey.ofText_of_head (DocumentKey.head_dotted hr.safe.head)),
    Path.ofText_append_point, Path.ofText_of_isPlain hr.plain]
  exact ofKey_crossing hplace hr hp (Path.ofText_ne_nil k) fun _ => Path.isPlain_of_mem_ofText

/-- A field key in a document under the name of the relation has a scope of its own. -/
theorem ofRelationEntry_result {k : String} (hk : k.toList.head? ≠ some '$') (v : Value) :
    (ofRelationEntry ⟨schema, root, policies⟩ (k, v) (place.enter ⟨[r], [r]⟩)).result =
      (ofEntry ⟨schema, root, policies⟩ (k, v) (place.behind r)).result.map
        (.scope relation (place.behind r).path []) := by
  have hne : ¬(k = "$elemMatch" ∨ k = "$exists") := by
    rintro (rfl | rfl) <;> exact hk rfl
  rw [ofRelationEntry, if_neg hne]
  exact ofScope_result hplace hr hp _ _

/-- A document under the name of the relation comes to what its entries come to there. -/
theorem ofKey_document {d : Value} {f : Fragment} (hd : d.mapping? = some f) (hne : f ≠ []) :
    (ofKey ⟨schema, root, policies⟩ value inside (ofRelationValue ⟨schema, root, policies⟩ d) [r]
        place).result =
      (f.mapM (ofRelationEntry ⟨schema, root, policies⟩ · (place.enter ⟨[r], [r]⟩))).result.map
        fun os => .field (place.key.external ++ [r]).strip (.all os) := by
  rw [ofKey_relation_result hplace hr hp, ofRelationValue_of_mapping? hd hne, return_result]
  cases (f.mapM (ofRelationEntry _ · (place.enter ⟨[r], [r]⟩))).result <;> rfl

theorem ofEntry_document {d : Value} {f : Fragment} (hd : d.mapping? = some f) (hne : f ≠ []) :
    (ofEntry ⟨schema, root, policies⟩ (r, d) place).result =
      (f.mapM (ofRelationEntry ⟨schema, root, policies⟩ · (place.enter ⟨[r], [r]⟩))).result.map
        fun os => .field (place.key.external ++ [r]).strip (.all os) := by
  rw [ofEntry_of_field (DocumentKey.ofText_of_head hr.safe.head.2),
    Path.ofText_of_isPlain hr.plain]
  exact ofKey_document hplace hr hp hd hne

theorem ofEntry_document_singleton {d : Value} {e : String × Value}
    (hd : d.mapping? = some [e]) :
    (ofEntry ⟨schema, root, policies⟩ (r, d) place).result =
      (ofRelationEntry ⟨schema, root, policies⟩ e (place.enter ⟨[r], [r]⟩)).result.map
        fun o => .field (place.key.external ++ [r]).strip (.all [o]) := by
  rw [ofEntry_document hplace hr hp hd (List.cons_ne_nil _ _), mapM_singleton, return_result]
  cases (ofRelationEntry _ e (place.enter ⟨[r], [r]⟩)).result <;> rfl

/-- A document in a scope that is written out is read in that scope. -/
theorem ofRelationEntry_elemMatch {d : Value} {f : Fragment} (hd : d.mapping? = some f) :
    (ofRelationEntry ⟨schema, root, policies⟩ ("$elemMatch", d)
        (place.enter ⟨[r], [r]⟩)).result =
      (ofFragment ⟨schema, root, policies⟩ f (place.behind r)).result.map
        (.scope relation (place.behind r).path []) := by
  rw [ofRelationEntry, if_pos (.inl rfl), ofEntry_elemMatch rfl hd]
  exact ofScope_result hplace hr hp _ _

end Relation
end Outline

/-! ## Compiled documents -/

section Compiled
variable {definition : Value} {catalog : Catalog} {root r : String} {relation : RelationField}
  {options : OptionsArgument} {policies : Policies}

/-- Without a limit, documents whose outlines put the same predicate together, or are refused alike
as far as `g` tells faults apart, compile alike. -/
theorem Setup.compile_congr_of_outlines {setup : Setup} {ε : Type} (g : Fault → ε)
    (hlimit : setup.policies.limit = none) {d d' : Value} {f f' : Fragment}
    (hd : d.mapping? = some f) (hd' : d'.mapping? = some f')
    (h : ((Outline.ofDocument setup f).result.map Outline.predicate).mapError g =
      ((Outline.ofDocument setup f').result.map Outline.predicate).mapError g) :
    (setup.compile d).result.mapError g = (setup.compile d').result.mapError g := by
  have hrun (f : Fragment) : (Traversal.run setup f).result =
      (Outline.ofDocument setup f).result.map Outline.predicate := by
    rw [Traversal.run_eq_outline hlimit f]
    exact Traced.return_result _ _
  have hmapping : (setup.compileMapping d).result.mapError g =
      (setup.compileMapping d').result.mapError g := by
    rw [compileMapping, compileMapping, hd, hd']
    refine Traced.mapError_bind_congr ?_ fun _ _ => rfl
    rw [hrun, hrun, h]
  rw [compile_result, compile_result, Value.isMissing_of_mapping? hd,
    Value.isMissing_of_mapping? hd', if_neg Bool.false_ne_true, if_neg Bool.false_ne_true,
    mapError_map_except, mapError_map_except, hmapping]

/-- Without a limit, documents whose outlines put the same predicate together, or are refused in
the same words, compile with the same outcome. -/
theorem compile_result_congr {schema : Schema} {d d' : Value} {f f' : Fragment}
    (hpolicies : Policies.resolve options = .ok policies) (hlimit : policies.limit = none)
    (hd : d.mapping? = some f) (hd' : d'.mapping? = some f')
    (h : (Outline.ofDocument ⟨schema, root, policies⟩ f).result.map Outline.predicate =
      (Outline.ofDocument ⟨schema, root, policies⟩ f').result.map Outline.predicate) :
    (compile schema root d options).result = (compile schema root d' options).result := by
  rw [compile_of_resolve hpolicies, compile_of_resolve hpolicies]
  exact Setup.compile_congr_of_outlines (Failure.of policies.formatter) hlimit hd hd' (congrArg _ h)

/-- Without policies that restrict it, such as those of the default options, a question about a
related row has the same outcome in three spellings: with the relation in the key of the field, as
a document under the name of the relation, and in a scope that is written out. The predicate is
the same, and whatever one spelling is refused for, the others are in the same words. -/
theorem compile_relation_spellings (hdefine : Definition.define definition = .ok catalog)
    (hr : catalog.schema.field? root r = some (.relation relation))
    (hpolicies : Policies.resolve options = .ok policies) (hp : policies.Unrestricted)
    {k : String} (hk : k.toList.head? ≠ some '$') (v : Value) :
    (compile catalog.schema root (.ofEntries [(r ++ "." ++ k, v)]) options).result =
        (compile catalog.schema root (.ofEntries [(r, .ofEntries [(k, v)])]) options).result ∧
      (compile catalog.schema root
          (.ofEntries [(r, .ofEntries [("$elemMatch", .ofEntries [(k, v)])])]) options).result =
        (compile catalog.schema root (.ofEntries [(r, .ofEntries [(k, v)])]) options).result := by
  have hrelates := Definition.relates_of_define hdefine hr
  have hroot := Place.IsOn.root catalog.schema root
  generalize hbehind : (Outline.ofEntry ⟨catalog.schema, root, policies⟩ (k, v)
    (Place.root.behind r)).result = behind
  have hdotted : (Outline.ofDocument ⟨catalog.schema, root, policies⟩
      [(r ++ "." ++ k, v)]).result = behind.map fun o =>
        .field (Path.strip (r :: Path.ofText k)) (.scope relation (Place.root.behind r).path [] o) := by
    rw [Outline.ofDocument, Outline.ofFragment_singleton,
      Outline.ofEntry_dotted hroot hrelates hp hk v, hbehind]
    rfl
  have hnested : (Outline.ofDocument ⟨catalog.schema, root, policies⟩
      [(r, .ofEntries [(k, v)])]).result = behind.map fun o =>
        .field (Path.strip [r]) (.all [.scope relation (Path.strip [r]) [] o]) := by
    rw [Outline.ofDocument, Outline.ofFragment_singleton,
      Outline.ofEntry_document_singleton hroot hrelates hp (e := (k, v)) rfl,
      Outline.ofRelationEntry_result hroot hrelates hp hk, hbehind]
    cases behind <;> rfl
  have hwritten : (Outline.ofDocument ⟨catalog.schema, root, policies⟩
      [(r, .ofEntries [("$elemMatch", .ofEntries [(k, v)])])]).result = behind.map fun o =>
        .field (Path.strip [r]) (.all [.scope relation (Path.strip [r]) [] o]) := by
    rw [Outline.ofDocument, Outline.ofFragment_singleton,
      Outline.ofEntry_document_singleton hroot hrelates hp
        (e := ("$elemMatch", .ofEntries [(k, v)])) rfl,
      Outline.ofRelationEntry_elemMatch hroot hrelates hp (f := [(k, v)]) rfl,
      Outline.ofFragment_singleton, hbehind]
    cases behind <;> rfl
  constructor
  · refine compile_result_congr hpolicies hp.limit rfl rfl ?_
    rw [hdotted, hnested]
    cases behind <;> rfl
  · refine compile_result_congr hpolicies hp.limit rfl rfl ?_
    rw [hwritten, hnested]

end Compiled

namespace Sample

def onPlaylistPredicate : Predicate :=
  .related tracks ["tracks"] (.related ⟨"playlists", "Track", "Playlist", .many⟩
    ["tracks", "playlists"] (.test ⟨"name", "Playlist", .scalar .text⟩
      ["tracks", "playlists", "name"] (.compare .eq (.text "y"))))

theorem compile_relation_spellings_tracks :
    Definition.define definition = .ok catalog ∧
      catalog.schema.field? "Album" "tracks" = some (.relation tracks) ∧
      Policies.resolve .absent = .ok (.ofOptions .empty) ∧
      (Policies.ofOptions .empty).Unrestricted ∧
      "playlists.name".toList.head? ≠ some '$' ∧
      (compile catalog.schema "Album"
          (.ofEntries [("tracks" ++ "." ++ "playlists.name", .text "y")]) .absent).result =
        .ok (some onPlaylistPredicate) ∧
      (compile catalog.schema "Album"
          (.ofEntries [("tracks", .ofEntries [("playlists.name", .text "y")])]) .absent).result =
        .ok (some onPlaylistPredicate) ∧
      (compile catalog.schema "Album" (.ofEntries
          [("tracks", .ofEntries [("$elemMatch", .ofEntries [("playlists.name", .text "y")])])])
          .absent).result =
        .ok (some onPlaylistPredicate) := by
  have hk : "playlists.name".toList.head? ≠ some '$' := by decide +kernel
  have htracks : catalog.schema.field? "Album" "tracks" = some (.relation tracks) := rfl
  have hoptions : Policies.resolve .absent = .ok (.ofOptions .empty) := rfl
  obtain ⟨hdotted, hwritten⟩ := compile_relation_spellings define_definition htracks hoptions
    Policies.unrestricted_default hk (.text "y")
  have hnested : (compile catalog.schema "Album"
      (.ofEntries [("tracks", .ofEntries [("playlists.name", .text "y")])]) .absent).result =
        .ok (some onPlaylistPredicate) := rfl
  exact ⟨define_definition, htracks, hoptions, Policies.unrestricted_default, hk,
    hdotted.trans hnested, hnested, hwritten.trans hnested⟩

end Sample
end RowFilter
