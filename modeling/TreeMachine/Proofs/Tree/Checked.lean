import TreeMachine.Proofs.Types.Declaration

/-!
# Trees whose nodes were checked

The constructors of `Build` look at the parts of a node before they make it. `Expr.Proper` says what
the constructor of a node makes sure of, `Expr.Checked` that this holds of every node of a tree. The
executors rely on it: they look at static types only where they choose between instructions.

`Universe.NonVoid` asks that parameters and members have types. A declaration may leave them out; no
value can be passed or stored there, and an expression of void type stands where one is expected.
-/

namespace TreeMachine

variable {e : Expr} {name : String}

structure TypeDecl.NonVoid (d : TypeDecl) : Prop where
  params : ∀ m ∈ d.methods, none ∉ m.params
  constructorParams : ∀ c ∈ d.constructors, none ∉ c.params
  members : ∀ p ∈ d.properties, p.type.isSome = true

theorem TypeDecl.nonVoid_iff {d : TypeDecl} : d.NonVoid ↔ (∀ m ∈ d.methods, none ∉ m.params) ∧
    (∀ c ∈ d.constructors, none ∉ c.params) ∧ ∀ p ∈ d.properties, p.type.isSome = true :=
  ⟨fun h => ⟨h.params, h.constructorParams, h.members⟩, fun ⟨h, h', h''⟩ => ⟨h, h', h''⟩⟩

instance (d : TypeDecl) : Decidable d.NonVoid := decidable_of_iff _ TypeDecl.nonVoid_iff.symm

namespace Universe

def NonVoid (U : Universe) : Prop := ∀ t, (U.decl t).NonVoid

theorem nonVoid_iff {U : Universe} : U.NonVoid ↔ ∀ d ∈ U.decls, d.NonVoid := by
  constructor
  · intro h d hd
    obtain ⟨i, hi, rfl⟩ := Array.mem_iff_getElem.1 hd
    have := h (.declared i)
    rwa [decl, Array.getD_eq_getD_getElem?, Array.getElem?_eq_getElem hi] at this
  · intro h t
    cases t with
    | declared i =>
      rw [decl, Array.getD_eq_getD_getElem?]
      cases hi : U.decls[i]? with
      | none => exact of_decide_eq_true rfl
      | some d => exact h d (Array.mem_of_getElem? hi)
    | _ => exact of_decide_eq_true rfl

instance (U : Universe) : Decidable U.NonVoid := decidable_of_iff _ nonVoid_iff.symm

def Declares (U : Universe) (m : Method) : Prop := m ∈ (U.decl m.owner).methods

instance (U : Universe) (m : Method) : Decidable (U.Declares m) :=
  inferInstanceAs (Decidable (m ∈ (U.decl m.owner).methods))

def DeclaresMember (U : Universe) (m : Member) : Prop := ∃ t, U.member? t m.name = some m

def ArgsFit (U : Universe) (params : List (Option Ty)) (args : List Expr) : Prop :=
  List.Forall₂ (fun p (e : Expr) => U.convertsImplicitlyOf e.type p = true) params args

/-- A static method that stands for an operator on the given operands. -/
def IsOperator (U : Universe) (m : Method) (operands : List Expr) (result : Option Ty) : Prop :=
  m.isStatic = true ∧ U.Declares m ∧ m.result = result ∧ U.ArgsFit m.params operands

end Universe

def Member.isWritable : Member → Bool
  | .field _ => true
  | .property p => p.setter.isSome

namespace Expr

/-- The expression denotes something that can be assigned to. -/
def isTarget : Expr → Bool
  | .var _ | .index _ _ | .hostVar _ _ _ => true
  | .member _ m => m.isWritable
  | _ => false

def Proper (U : Universe) : Expr → Prop
  | .constant v t =>
    (v = .nilOf t ∧ ∃ u, t = some u ∧ U.isValue u = false) ∨ v.type = t ∨ U.assignableOf v.type t = true
  | .var _ | .hostVar _ _ _ | .default _ => True
  | .member o m => ∃ t, o.type = some t ∧ U.member? t m.name = some m
  | .call o m args => m.isStatic = false ∧ U.Declares m ∧ U.ArgsFit m.params args ∧
    ∃ t, o.type = some t ∧ Build.hasMethodsOf U t m.owner = true
  | .callStatic m args => m.isStatic = true ∧ U.Declares m ∧ U.ArgsFit m.params args
  | .new t c args => Build.cannotConstruct U t = false ∧ U.constructor? t args.length = c ∧
    U.ArgsFit ((c.map Method.params).getD []) args
  | .init _ _ _ ms vs => List.Forall₂ (fun (m : Member) (e : Expr) => m.isWritable = true ∧
    U.DeclaresMember m ∧ U.convertsImplicitlyOf e.type m.type = true) ms vs
  | .convert e none t => U.convertsExplicitlyOf e.type t = true
  | .convert e (some m) t => U.IsOperator m [e] t
  | .lambda _ _ params body result type => Build.repeated? [] params = none ∧
    (result.isSome = true → U.convertsImplicitlyOf body.type result = true) ∧
    U.signature? type = some (params.map (·.type), result)
  | .cond c a b => c.type = some .bool ∧ a.type = b.type
  | .binary op l r none t => ∃ a b, l.type = some a ∧ r.type = some b ∧
    Build.operatorType? U op a b = some t
  | .binary _ l r (some m) t => U.IsOperator m [l, r] (some t)
  | .unary .not e => e.type = some .bool
  | .unary .negate e => ∃ t, e.type = some t ∧ U.isNumeric t = true
  | .assign target value => target.isTarget = true ∧
    U.convertsImplicitlyOf value.type target.type = true
  | .block _ _ es => es ≠ []
  | .apply f args r => ∃ t params, f.type = some t ∧ U.signature? t = some (params, r) ∧
    U.ArgsFit (params.map some) args
  | .newArray _ n => n.type = some .int32
  | .arrayOf t items => ∀ e ∈ items, U.convertsImplicitlyOf e.type (some t) = true
  | .index a i => Build.isArray a = true ∧ i.type = some .int32
  | .length a => Build.isArray a = true
  | .absent => False

inductive Checked (U : Universe) : Expr → Prop
  | node {e : Expr} : e.Proper U → (∀ c ∈ e.children, Checked U c) → Checked U e

namespace Checked

variable {U : Universe}

theorem proper (h : e.Checked U) : e.Proper U := by
  cases h
  assumption

theorem child {c : Expr} (h : e.Checked U) (hc : c ∈ e.children) : c.Checked U := by
  cases h
  rename_i hchildren
  exact hchildren c hc

end Checked

/-! ### Deciding -/

instance {α : Type} (o : Option α) (P : α → Prop) [DecidablePred P] : Decidable (∃ a, o = some a ∧ P a) :=
  match o with
  | none => .isFalse (by simp)
  | some a => decidable_of_iff (P a) (by simp)

instance (U : Universe) (params : List (Option Ty)) (args : List Expr) : Decidable (U.ArgsFit params args) :=
  inferInstanceAs (Decidable (List.Forall₂ _ params args))

instance (U : Universe) (m : Method) (operands : List Expr) (result : Option Ty) :
    Decidable (U.IsOperator m operands result) :=
  inferInstanceAs (Decidable (_ ∧ _ ∧ _ ∧ _))

/-- What the constructors make sure of can be looked up, except that a type has a member that a node names. -/
noncomputable instance (U : Universe) : DecidablePred (Proper U)
  | .constant v t => inferInstanceAs (Decidable (v = .nilOf t ∧ _ ∨ v.type = t ∨ _))
  | .var _ | .hostVar _ _ _ | .default _ => .isTrue trivial
  | .member o m => inferInstanceAs (Decidable (∃ t, o.type = some t ∧ _))
  | .call o m args => inferInstanceAs (Decidable (_ ∧ _ ∧ _ ∧ ∃ t, o.type = some t ∧ _))
  | .callStatic m args => inferInstanceAs (Decidable (_ ∧ _ ∧ U.ArgsFit m.params args))
  | .new t c args => inferInstanceAs (Decidable (_ ∧ _ ∧ U.ArgsFit _ args))
  | .init _ _ _ _ _ => Classical.propDecidable _
  | .convert _ none _ => inferInstanceAs (Decidable (_ = true))
  | .convert e (some m) t => inferInstanceAs (Decidable (U.IsOperator m [e] t))
  | .lambda _ _ params body result type => inferInstanceAs (Decidable (_ ∧ (_ → _) ∧ _))
  | .cond c a b => inferInstanceAs (Decidable (_ ∧ _))
  | .binary op l r none t => decidable_of_iff
      (∃ a, l.type = some a ∧ ∃ b, r.type = some b ∧ Build.operatorType? U op a b = some t) (by simp [Proper])
  | .binary _ l r (some m) t => inferInstanceAs (Decidable (U.IsOperator m [l, r] (some t)))
  | .unary .not e => inferInstanceAs (Decidable (e.type = some .bool))
  | .unary .negate e => inferInstanceAs (Decidable (∃ t, e.type = some t ∧ _))
  | .assign target value => inferInstanceAs (Decidable (_ ∧ _))
  | .block _ _ es => decidable_of_iff (es.isEmpty = false) (by simp [Proper])
  | .apply f args r => decidable_of_iff
      (∃ t, f.type = some t ∧ ∃ s, U.signature? t = some s ∧ s.2 = r ∧ U.ArgsFit (s.1.map some) args)
      (by simp [Proper])
  | .newArray _ n => inferInstanceAs (Decidable (n.type = some .int32))
  | .arrayOf t items => inferInstanceAs (Decidable (∀ e ∈ items, _))
  | .index a i => inferInstanceAs (Decidable (_ ∧ _))
  | .length a => inferInstanceAs (Decidable (_ = true))
  | .absent => .isFalse id

def Within (P : Expr → Prop) : Nat → Expr → Prop
  | 0, _ => False
  | n + 1, e => P e ∧ ∀ c ∈ e.children, c.Within P n

instance decidableWithin (P : Expr → Prop) [DecidablePred P] : (n : Nat) → (e : Expr) → Decidable (e.Within P n)
  | 0, _ => .isFalse id
  | n + 1, e =>
    have := decidableWithin P n
    inferInstanceAs (Decidable (P e ∧ ∀ c ∈ e.children, c.Within P n))

theorem checked_of_within {U : Universe} (n : Nat) (h : e.Within (Proper U) n) : e.Checked U := by
  induction n generalizing e with
  | zero => exact h.elim
  | succ n ih => exact .node h.1 fun c hc => ih (h.2 c hc)

/-- The expressions whose values are passed to a method or stored. -/
def passed : Expr → List Expr
  | .call _ _ args | .callStatic _ args | .new _ _ args => args
  | .init _ _ _ _ values => values
  | .assign _ value => [value]
  | _ => []

/-- Nothing void is passed to a method or stored anywhere in the tree. -/
inductive Valued : Expr → Prop
  | node {e : Expr} : (∀ c ∈ e.passed, ∃ t, c.type = some t) → (∀ c ∈ e.children, Valued c) →
    Valued e

namespace Valued

theorem passed (h : e.Valued) : ∀ c ∈ e.passed, ∃ t, c.type = some t := by
  cases h
  assumption

theorem child {c : Expr} (h : e.Valued) (hc : c ∈ e.children) : c.Valued := by
  cases h
  rename_i hchildren
  exact hchildren c hc

end Valued

theorem lastType_cons_of_ne_nil {es : List Expr} (h : es ≠ []) : lastType (e :: es) = lastType es := by
  cases es with
  | nil => exact absurd rfl h
  | cons e' es => rfl

end Expr

namespace Universe

variable {U : Universe}

theorem type_of_converts {s : Option Ty} {t : Ty} (h : U.convertsImplicitlyOf s (some t) = true) :
    ∃ u, s = some u := by
  cases s with
  | none => cases h
  | some u => exact ⟨u, rfl⟩

theorem target_of_converts {s : Ty} {t : Option Ty} (h : U.convertsImplicitlyOf (some s) t = true) :
    ∃ u, t = some u := by
  cases t with
  | none => cases h
  | some u => exact ⟨u, rfl⟩

theorem ArgsFit.types {params : List (Option Ty)} {args : List Expr} (h : U.ArgsFit params args)
    (hp : none ∉ params) : ∀ e ∈ args, ∃ t, e.type = some t := by
  induction h with
  | nil => simp
  | @cons p e params args hpe _ ih =>
    intro e' he'
    simp only [List.mem_cons, not_or] at hp
    rcases List.mem_cons.1 he' with rfl | he'
    · cases p with
      | none => exact absurd rfl hp.1
      | some t => exact type_of_converts hpe
    · exact ih hp.2 e' he'

theorem property_of_member? {t : Ty} {p : Property}
    (h : U.member? t name = some (.property p)) : ∃ c, p ∈ (U.decl c).properties := by
  unfold member? at h
  split at h
  · cases h
  · obtain ⟨q, hq, hp⟩ := Option.map_eq_some_iff.1 h
    cases hp
    obtain ⟨c, -, hc⟩ := List.exists_of_findSome?_eq_some hq
    exact ⟨c, List.mem_of_find?_eq_some hc⟩

theorem mem_of_constructor? {t : Ty} {n : Nat} {c : Method} (h : U.constructor? t n = some c) :
    c ∈ (U.decl t).constructors :=
  List.mem_of_find?_eq_some h

theorem NonVoid.member_type (hU : U.NonVoid) {t : Ty} {m : Member}
    (h : U.member? t name = some m) : ∃ u, m.type = some u := by
  cases m with
  | field f => exact ⟨f.type, rfl⟩
  | property p =>
    obtain ⟨c, hc⟩ := property_of_member? h
    exact Option.isSome_iff_exists.1 ((hU c).members p hc)

theorem NonVoid.target_type (hU : U.NonVoid) (ht : e.isTarget = true) (hp : e.Proper U) :
    ∃ t, e.type = some t := by
  cases e with
  | var v => exact ⟨_, rfl⟩
  | hostVar name cell t => exact ⟨t, rfl⟩
  | member o m =>
    obtain ⟨t, -, hm⟩ := hp
    exact hU.member_type hm
  | index a i => exact Option.isSome_iff_exists.1 hp.1
  | _ => cases ht

/-- **Without void parameters and members**, a checked tree passes and stores nothing void. -/
theorem NonVoid.valued (hU : U.NonVoid) (he : e.Checked U) : e.Valued := by
  induction he with
  | @node e hp hc ih =>
    refine .node (fun c hmem => ?_) ih
    cases e with
    | call o m args =>
      obtain ⟨-, hm, hargs, -⟩ := hp
      exact hargs.types ((hU _).params m hm) c hmem
    | callStatic m args =>
      obtain ⟨-, hm, hargs⟩ := hp
      exact hargs.types ((hU _).params m hm) c hmem
    | new t ctor args =>
      obtain ⟨-, hctor, hargs⟩ := hp
      refine hargs.types ?_ c hmem
      cases ctor with
      | none => simp
      | some m => exact (hU t).constructorParams m (mem_of_constructor? hctor)
    | init t ctor args ms vs =>
      obtain ⟨i, hi, rfl⟩ := List.getElem_of_mem hmem
      obtain ⟨-, ⟨t', hm⟩, hconv⟩ := List.Forall₂.get hp (hp.length_eq ▸ hi) hi
      obtain ⟨u, hu⟩ := hU.member_type hm
      rw [hu] at hconv
      exact type_of_converts hconv
    | assign target value =>
      obtain rfl := List.mem_singleton.1 hmem
      obtain ⟨u, hu⟩ := hU.target_type hp.1 (hc target List.mem_cons_self).proper
      have hconv := hp.2
      rw [hu] at hconv
      exact type_of_converts hconv
    | _ => cases hmem

end Universe

end TreeMachine
