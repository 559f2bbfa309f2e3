import TreeMachine.Codegen.Plan
import TreeMachine.Proofs.Types.Assignability

/-!
# Which conversions there are

Conversions are told apart three times: by relations between types, where trees are built; by plans, where
code is emitted; and by the cases of `Walk.convert`, where trees are evaluated. The cases come in different
orders. `Plan.Route` lists them once, each with what its types must be:

* **`Plan.steps?_eq_ok_iff`**: the plans between two types are the routes.
* **`Plan.exists_make_iff`**: there is a plan exactly where the relations say that a type converts to another.
-/

namespace TreeMachine

namespace Plan

open Universe

variable {U : Universe} {a b : Ty} {explicit : Bool} {steps : List ConversionStep}

structure Numbers (U : Universe) (a b : Ty) : Prop where
  source : U.isScalar a = true
  target : U.isScalar b = true
  source_ne : U.primitive? a ≠ some .bool
  target_ne : U.primitive? b ≠ some .bool

/-- The ways from a type to another one, with the steps of each. -/
inductive Route (U : Universe) (a b : Ty) (explicit : Bool) : List ConversionStep → Prop
  | number : Numbers U a b → U.isEnum a = false → U.isEnum b = false →
    explicit = true ∨ U.isWidening a b = true → Route U a b explicit (numericSteps U a b)
  | enum : Numbers U a b → U.isEnum a = true ∨ U.isEnum b = true → explicit = true →
    Route U a b explicit ((if U.isEnum a then [.retag (numberType U a)] else []) ++
      numericSteps U (numberType U a) (numberType U b) ++ if U.isEnum b then [.retag b] else [])
  | box : U.boxesTo a b = true → Route U a b explicit [.box a]
  | unbox : explicit = true → U.boxesTo b a = true → Route U a b explicit [.unbox b]
  | upcast : U.isValue a = false → U.isValue b = false → U.assignable a b = true → Route U a b explicit []
  | cast : U.isValue a = false → U.isValue b = false → U.assignable a b = false → explicit = true →
    U.convertsExplicitly a b = true → Route U a b explicit [.cast b]

theorem scalarSteps_eq_ok (ha : U.isScalar a = true) (hb : U.isScalar b = true)
    (h : scalarSteps U a b explicit = .ok steps) : Route U a b explicit steps := by
  unfold scalarSteps at h
  split at h
  · cases h
  rename_i hbool
  simp only [Bool.or_eq_true, decide_eq_true_eq, not_or] at hbool
  have hnumbers : Numbers U a b := ⟨ha, hb, hbool.1, hbool.2⟩
  split at h
  · rename_i henum
    split at h
    · rename_i hexplicit
      cases h
      exact .enum hnumbers (by simpa using henum) hexplicit
    · cases h
  · rename_i henum
    simp only [Bool.or_eq_true, not_or, Bool.not_eq_true] at henum
    split at h
    · rename_i hwiden
      cases h
      exact .number hnumbers henum.1 henum.2 (by simpa using hwiden)
    · cases h

theorem Route.of_steps? (h : steps? U a b explicit = .ok steps) : Route U a b explicit steps := by
  unfold steps? at h
  split at h
  · rename_i hscalars
    simp only [Bool.and_eq_true] at hscalars
    exact scalarSteps_eq_ok hscalars.1 hscalars.2 h
  split at h
  · split at h
    · rename_i hbox
      cases h
      exact .box hbox
    · cases h
  rename_i ha
  split at h
  · split at h
    · cases h
    · rename_i hexplicit
      split at h
      · rename_i hbox
        cases h
        exact .unbox (by simpa using hexplicit) hbox
      · cases h
  rename_i hb
  have ha : U.isValue a = false := by simpa using ha
  have hb : U.isValue b = false := by simpa using hb
  split at h
  · rename_i hup
    cases h
    exact .upcast ha hb hup
  · rename_i hup
    split at h
    · rename_i hcast
      cases h
      simp only [Bool.and_eq_true] at hcast
      exact .cast ha hb (by simpa using hup) hcast.1 hcast.2
    · cases h

theorem Route.steps? (h : Route U a b explicit steps) : steps? U a b explicit = .ok steps := by
  unfold Plan.steps?
  cases h with
  | number hn ha hb hwiden =>
    simp [hn.source, hn.target, scalarSteps, hn.source_ne, hn.target_ne, ha, hb, hwiden]
  | enum hn henum hexplicit =>
    have henum : (U.isEnum a || U.isEnum b) = true := by simpa using henum
    simp [hn.source, hn.target, scalarSteps, hn.source_ne, hn.target_ne, henum, hexplicit]
  | box h =>
    have ha := isValue_of_boxesTo h
    have hb := isScalar_of_isValue (target_of_boxesTo h)
    simp [hb, ha, h]
  | unbox hexplicit h =>
    have hb := isValue_of_boxesTo h
    have ha := target_of_boxesTo h
    simp [isScalar_of_isValue ha, ha, hb, h, hexplicit]
  | upcast ha hb h => simp [isScalar_of_isValue ha, ha, hb, h]
  | cast ha hb hup hexplicit h => simp [isScalar_of_isValue ha, ha, hb, hup, hexplicit, h]

/-! ## The relations -/

def Converts (U : Universe) (explicit : Bool) (a b : Option Ty) : Prop :=
  if explicit then U.convertsExplicitlyOf a b = true else U.convertsImplicitlyOf a b = true

theorem convertsExplicitly_of_implicitly (h : U.convertsImplicitly a b = true) : U.convertsExplicitly a b = true := by
  rw [convertsExplicitly, if_pos h]

theorem Route.of_implicitly (hU : U.Declared) (hne : a ≠ b) (h : U.convertsImplicitly a b = true) :
    ∃ steps, Route U a b explicit steps := by
  unfold convertsImplicitly at h
  rw [if_neg hne] at h
  split at h
  · simp only [Bool.or_eq_true] at h
    rcases h with h | h
    · obtain ⟨⟨ha, hb⟩, ⟨ha', hb'⟩, hea, heb⟩ := Universe.numbers_of_isWidening h
      exact ⟨_, .number ⟨ha, hb, ha', hb'⟩ hea heb (.inr h)⟩
    · exact ⟨_, .box h⟩
  · rename_i ha
    exact ⟨_, .upcast (by simpa using ha) (hU.isValue_of_assignable hne h) h⟩

theorem Route.of_explicitly (hU : U.Declared) (hne : a ≠ b) (h : U.convertsExplicitly a b = true) :
    ∃ steps, Route U a b true steps := by
  by_cases himplicit : U.convertsImplicitly a b = true
  · exact Route.of_implicitly hU hne himplicit
  -- references are cast, whatever the relation says about them
  by_cases hrefs : U.isValue a = false ∧ U.isValue b = false
  · cases hup : U.assignable a b with
    | true => exact ⟨_, .upcast hrefs.1 hrefs.2 hup⟩
    | false => exact ⟨_, .cast hrefs.1 hrefs.2 hup rfl h⟩
  rw [convertsExplicitly, if_neg himplicit] at h
  unfold isValue at hrefs
  split at h
  · rename_i ha hb
    have ha : U.isScalar a = true := by simp [isScalar, ha]
    have hb : U.isScalar b = true := by simp [isScalar, hb]
    simp only [Bool.and_eq_true, any_isNumeric_iff ha, any_isNumeric_iff hb] at h
    have hnumbers : Numbers U a b := ⟨ha, hb, h.1, h.2⟩
    by_cases henum : U.isEnum a = true ∨ U.isEnum b = true
    · exact ⟨_, .enum hnumbers henum rfl⟩
    · simp only [not_or, Bool.not_eq_true] at henum
      exact ⟨_, .number hnumbers henum.1 henum.2 (.inl rfl)⟩
  · exact ⟨_, .unbox rfl h⟩
  · exact ⟨_, .unbox rfl h⟩
  · cases h
  · cases h
  all_goals
    rename_i ha hb
    simp [ha, hb, Storage.isValue] at hrefs

theorem Route.implicitly (h : Route U a b false steps) (hne : a ≠ b) : U.convertsImplicitly a b = true := by
  unfold convertsImplicitly
  rw [if_neg hne]
  cases h with
  | number hn _ _ hwiden =>
    have hvalue : U.isValue a = true := by
      have := hn.source
      simp only [isScalar, decide_eq_true_eq] at this
      simp [isValue, this, Storage.isValue]
    simp [hvalue, hwiden.resolve_left Bool.false_ne_true]
  | enum _ _ h | unbox h | cast _ _ _ h => cases h
  | box h => simp [isValue_of_boxesTo h, h]
  | upcast ha _ h => simp [ha, h]

theorem Route.explicitly (h : Route U a b true steps) (hne : a ≠ b) : U.convertsExplicitly a b = true := by
  have hnumeric : Numbers U a b → U.convertsExplicitly a b = true := by
    intro hn
    have ha := hn.source
    have hb := hn.target
    have ha' := (any_isNumeric_iff ha).2 hn.source_ne
    have hb' := (any_isNumeric_iff hb).2 hn.target_ne
    simp only [isScalar, decide_eq_true_eq] at ha hb
    simp [convertsExplicitly, ha, hb, ha', hb']
  cases h with
  | number hn | enum hn => exact hnumeric hn
  | box h => exact convertsExplicitly_of_implicitly (Route.implicitly (.box h) hne)
  | unbox _ h =>
    have ha := target_of_boxesTo h
    have hb := isValue_of_boxesTo h
    unfold isValue at ha hb
    cases hsa : U.storage a <;> cases hsb : U.storage b <;>
      simp_all [convertsExplicitly, Storage.isValue]
  | upcast ha hb h => exact convertsExplicitly_of_implicitly (Route.implicitly (.upcast ha hb h) hne)
  | cast _ _ _ _ h => exact h

theorem exists_make_iff (hU : U.Declared) (a b : Option Ty) (explicit : Bool) :
    (∃ p, make U a b explicit = .ok p) ↔ Converts U explicit a b := by
  unfold make Converts
  by_cases heq : a = b
  · subst heq
    cases a <;> cases explicit <;>
      simp [convertsImplicitlyOf, convertsExplicitlyOf, convertsImplicitly,
        convertsExplicitly]
  rw [if_neg heq]
  cases a with
  | none =>
    cases b with
    | none => exact absurd rfl heq
    | some b => cases explicit <;> simp [convertsImplicitlyOf, convertsExplicitlyOf]
  | some a =>
    cases b with
    | none => cases explicit <;> simp [convertsImplicitlyOf, convertsExplicitlyOf]
    | some b =>
      have hne : a ≠ b := fun h => heq (congrArg some h)
      have hroute : (∃ p, (do return (⟨some a, some b, ← Plan.steps? U a b explicit⟩ : Plan) :
          Except PlanError Plan) = .ok p) ↔ ∃ steps, Route U a b explicit steps := by
        constructor
        · rintro ⟨p, hp⟩
          obtain ⟨steps, hsteps, -⟩ := Except.bind_eq_ok.1 hp
          exact ⟨steps, .of_steps? hsteps⟩
        · rintro ⟨steps, h⟩
          exact ⟨⟨some a, some b, steps⟩, Except.bind_eq_ok.2 ⟨steps, h.steps?, rfl⟩⟩
      refine hroute.trans ?_
      cases explicit with
      | true => exact ⟨fun ⟨_, h⟩ => h.explicitly hne, fun h => Route.of_explicitly hU hne h⟩
      | false => exact ⟨fun ⟨_, h⟩ => h.implicitly hne, fun h => Route.of_implicitly hU hne h⟩

end Plan

end TreeMachine
