import RowFilter.Proofs.Rebase

/-!
# Readings side by side

Two readings that ask different policies for conditions, or go into different values, take a key
apart at the same segments and open the same scopes. Whatever relates what the values come to at
the end of a key relates what the key comes to, if it says nothing of conditions that the two
policies do not bear out.
-/

namespace RowFilter

namespace Traced
variable {α β γ δ : Type} {R : α → β → Prop} {S : γ → δ → Prop} {x : Traced α} {y : Traced β}

/-- Wherever the first comes to something, the second comes to something that is related. -/
def Matches (R : α → β → Prop) (x : Traced α) (y : Traced β) : Prop :=
  ∀ a, x.result = .ok a → ∃ b, y.result = .ok b ∧ R a b

theorem matches_pure {a : α} {b : β} (h : R a b) : Matches R (pure a) (pure b) := by
  rintro _ ⟨⟩
  exact ⟨b, rfl, h⟩

theorem matches_refuse {cause : Cause} {dataKey : Path} {filter : Value} {op : Option String} :
    Matches R (refuse cause dataKey filter op) y :=
  fun a h => absurd h (refuse_result_ne_ok cause dataKey filter op a)

theorem matches_bind {k : α → Traced γ} {l : β → Traced δ} (hx : Matches R x y)
    (h : ∀ a b, x.result = .ok a → R a b → Matches S (k a) (l b)) :
    Matches S (x >>= k) (y >>= l) := by
  intro c hc
  obtain ⟨a, ha, hc⟩ := bind_result_eq_ok_iff.mp hc
  obtain ⟨b, hb, hab⟩ := hx a ha
  obtain ⟨d, hd, hcd⟩ := h a b ha hab c hc
  exact ⟨d, bind_result_eq_ok_iff.mpr ⟨b, hb, hd⟩, hcd⟩

/-- What comes to the same is related in every way that the same is. -/
theorem matches_self {R : α → α → Prop} (h : ∀ a, R a a) (x : Traced α) : Matches R x x :=
  fun a ha => ⟨a, ha, h a⟩

theorem carries_iff_matches {g : α → β} : Carries g x y ↔ Matches (fun a b => g a = b) x y := by
  simp only [Carries, Matches, exists_eq_right']

end Traced

/-- The same setup with conditions from another source. -/
def Setup.withConditions (setup : Setup) (source : ConditionSource) : Setup :=
  { setup with policies.conditions := source }

namespace Outline
open Traced

variable {setup : Setup} {source : ConditionSource} {R : Outline → Outline → Prop}
  {value value' : Value} {place : Place}

/-- A scope comes to what is read in it, behind the relation at its place. -/
theorem ofScope_eq_ok_iff {body : Place → Traced Outline} {o : Outline} :
    (ofScope setup value body place).result = .ok o ↔
      ∃ relation conditions inside,
        (fieldAt? setup place).result = .ok (some (.relation relation)) ∧
        (setup.policies.conditionsFor place.path).result = .ok conditions ∧
        (body place.inScope).result = .ok inside ∧
        o = .scope relation place.path conditions inside := by
  constructor
  · intro h
    obtain ⟨relation, conditions, inside, rfl, htarget, hconditions, hinside⟩ :=
      exists_of_yields_ofScope (yields_self h)
    exact ⟨relation, conditions, inside, htarget, hconditions, hinside.result, rfl⟩
  · rintro ⟨relation, conditions, inside, htarget, hconditions, hinside, rfl⟩
    refine bind_result_eq_ok_iff.mpr ⟨_, htarget, ?_⟩
    refine bind_result_eq_ok_iff.mpr ⟨_, hconditions, ?_⟩
    refine bind_result_eq_ok_iff.mpr ⟨(), rfl, ?_⟩
    exact bind_result_eq_ok_iff.mpr ⟨_, hinside, rfl⟩

/-- What a key is called inside does not depend on its value, which a refusal shows. -/
theorem innerKey_of_value {key dataKey inner : Path}
    (h : (Traversal.innerKey setup key dataKey value).result = .ok inner) :
    (Traversal.innerKey (setup.withConditions source) key dataKey value').result = .ok inner := by
  obtain ⟨answer, hanswer, h⟩ := bind_result_eq_ok_iff.mp h
  refine bind_result_eq_ok_iff.mpr ⟨answer, hanswer, ?_⟩
  dsimp only at h ⊢
  split at h
  · next hlength =>
    rw [if_pos hlength]
    exact h
  · exact absurd h (refuse_result_ne_ok _ _ _ _ _)

theorem Opens.of_value {key inner : Path} {steps : List Step}
    (h : Opens setup value place key inner steps) :
    Opens (setup.withConditions source) value' place key inner steps :=
  ⟨h.safe, innerKey_of_value h.named, h.granted, h.closed, h.resolved⟩

/-- A relation on outlines that goes through scopes, whatever the two sources of conditions have
to say there, and through field keys. -/
structure Spans (setup : Setup) (source : ConditionSource) (R : Outline → Outline → Prop) :
    Prop where
  field : ∀ path o o', R o o' → R (.field path o) (.field path o')
  scope : ∀ relation path conditions,
    (setup.policies.conditionsFor path).result = .ok conditions →
      ∃ conditions',
        ((setup.withConditions source).policies.conditionsFor path).result = .ok conditions' ∧
        ∀ o o', R o o' → R (.scope relation path conditions o) (.scope relation path conditions' o')

section Spans
variable (hR : Spans setup source R)
include hR

theorem matches_ofScope {body body' : Place → Traced Outline}
    (hbody : ∀ place, Matches R (body place) (body' place)) (place : Place) :
    Matches R (ofScope setup value body place)
      (ofScope (setup.withConditions source) value' body' place) := by
  intro o h
  obtain ⟨relation, conditions, inside, htarget, hconditions, hinside, rfl⟩ :=
    ofScope_eq_ok_iff.mp h
  obtain ⟨conditions', hconditions', hscope⟩ := hR.scope relation _ _ hconditions
  obtain ⟨inside', hinside', hrelated⟩ := hbody _ inside hinside
  exact ⟨_, ofScope_eq_ok_iff.mpr ⟨relation, _, _, htarget, hconditions', hinside', rfl⟩,
    hscope _ _ hrelated⟩

/-- A key comes to what is related, if its value does at every place. -/
theorem matches_ofKey {inside inside' onRelation onRelation' : Place → Traced Outline}
    (hinside : ∀ place, Matches R (inside place) (inside' place))
    (honRelation : ∀ place, Matches R (onRelation place) (onRelation' place)) (key : Path)
    (place : Place) :
    Matches R (ofKey setup value inside onRelation key place)
      (ofKey (setup.withConditions source) value' inside' onRelation' key place) := by
  induction hn : key.length using Nat.strongRecOn generalizing key place with
  | ind n ih =>
    intro o h
    obtain ⟨inner, steps, content, hopens, hcontent, rfl⟩ := ofKey_eq_ok_iff.mp h
    have hbelow : Matches R
        (ofOpened setup value inside onRelation ⟨key, inner⟩ steps place)
        (ofOpened (setup.withConditions source) value' inside' onRelation' ⟨key, inner⟩ steps
          place) := by
      unfold ofOpened
      split
      · exact hinside _
      · next next _ =>
        dsimp only
        split
        · exact honRelation _
        · next first rest hdrop =>
          have hlt := hn ▸ length_lt_of_drop_eq hdrop (Nat.succ_pos _)
          exact matches_ofScope hR (fun place => ih _ hlt _ place rfl) _
    obtain ⟨content', hcontent', hrelated⟩ := hbelow content hcontent
    exact ⟨_, ofKey_eq_ok_iff.mpr ⟨inner, steps, content', hopens.of_value, hcontent', rfl⟩,
      hR.field _ _ _ hrelated⟩

end Spans
end Outline
end RowFilter
