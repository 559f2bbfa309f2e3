import TreeMachine.Proofs.Codegen.Lockstep

/-!
# Nodes in lockstep

The code of each kind of node is the same on both sides, slots apart, if the code of its parts is. Slots
come into it where a temporary is borrowed, where variables are declared and where they are used.
-/

open List

namespace TreeMachine.Codegen

open TreeMachine.EStateM

variable {ctx : Context} {reuse path : Bool} {kind : Kind} {w w' w'' : Pairing} {α : Type} {s : CodegenState}
  {t : Ty} {b b' : Binding} {live : List Placement} {known : SlotPairs} {scope : Int}
  {x y receiver receiver' operand operand' left left' right right' code code' array array' index index' : Codegen Unit}
  {env env' : Bindings} {id i j : Nat} {op : Opcode} {m : Method} {args : List Expr}
  {argsCode argsCode' : List Plan → Codegen Unit} {source elem : Option Ty} {v : Var} {number : Option Nat}

/-! ## Scopes -/

theorem follows_openScope :
    Follows (Paired w) (fun a b s t => b = a ∧ (∀ x ∈ w.live, x.scope ≠ a) ∧ Paired w s t) openScope openScope := by
  intro s t hp scope s' h
  obtain ⟨rfl, rfl⟩ := openScope_eq_ok h
  obtain ⟨hid, hslots⟩ := hp.slots.openScope
  refine ⟨_, _, rfl, hid, fun x hx => ?_, { hp with slots := hslots }⟩
  exact Int.ne_of_lt (hp.slots.scope_lt x hx)

def Pairing.place (w : Pairing) (i j : Nat) (scope : Int) : Pairing :=
  { w with live := ⟨i, j, scope⟩ :: w.live }

theorem Pairing.holds_place (i j : Nat) (scope : Int) : (w.place i j scope).Holds (i, j) :=
  ⟨_, mem_cons_self, rfl⟩

theorem Pairing.Ok.place (h : w.Ok) (i j : Nat) (scope : Int) : (w.place i j scope).Ok where
  known x hx := by
    obtain ⟨p, hp, he⟩ := h.known x hx
    exact ⟨p, mem_cons_of_mem _ hp, he⟩
  env := h.env

theorem Paired.reslot {t : CodegenState} (h : Paired w s t) {a b : Slots} (hslots : Slots.Matched live a b)
    (ha : s.function.slots.count ≤ a.count) (hb : t.function.slots.count ≤ b.count) (hsub : known ⊆ w.known)
    (hok : Pairing.Ok { w with live := live, known := known }) : Paired { w with live := live, known := known }
      { s with function := { s.function with slots := a } } { t with function := { t.function with slots := b } } := by
  obtain ⟨P, hP⟩ := h.code
  exact { hok, h with slots := hslots, code := ⟨P, hP.enlarge (.refl _) (.refl _) ha hb hsub⟩ }

theorem follows_allocate (t : Option Ty) (name : String) (m : CaptureMode) (scope : Int) :
    Follows (Paired w) (fun i j s t => Paired (w.place i j scope) s t) (allocate kind t name m scope)
      (allocate kind t name m scope) := by
  intro s r hp i s' h
  obtain ⟨a', ha, rfl⟩ := allocate_eq_ok h
  obtain ⟨j, b', hb, hmatched, -, hle, hle'⟩ := hp.slots.allocate ha
  refine ⟨j, { r with function := { r.function with slots := b' } }, ?_,
    hp.reslot hmatched hle hle' (List.Subset.refl _) (hp.toOk.place _ _ _)⟩
  refine bind_eq_ok.2 ⟨_, _, get_eq_ok.2 ⟨rfl, rfl⟩, ?_⟩
  simp only [hb]
  rfl

theorem steps_release (hok : Pairing.Ok { w with live := live, known := known }) (hlive : live ⊆ w.live)
    (hknown : known ⊆ w.known) (hother : ∀ x ∈ live, x.scope ≠ scope) :
    Steps w { w with live := live, known := known } (release kind scope) (release kind scope) := by
  intro s r hp u s' h
  obtain ⟨a', ha, rfl⟩ := release_eq_ok h
  obtain ⟨b', hb, hmatched, hle, hle'⟩ := hp.slots.release ha hlive hother
  refine ⟨(), { r with function := { r.function with slots := b' } }, ?_, rfl,
    hp.reslot hmatched (Nat.le_of_eq hle.symm) (Nat.le_of_eq hle'.symm) hknown hok⟩
  refine bind_eq_ok.2 ⟨_, _, get_eq_ok.2 ⟨rfl, rfl⟩, ?_⟩
  simp only [hb]
  rfl

theorem agrees_withTemp {x y : Nat → Codegen Unit}
    (h : ∀ {w : Pairing} {i j : Nat}, w.Holds (i, j) → Steps w (w.learn i j) (x i) (y j)) :
    Agrees (withTemp kind t x) (withTemp kind t y) := by
  intro w s r hp
  have hok := hp.toOk
  revert s r
  refine Follows.bind follows_openScope fun scope scope' s r hr => ?_
  obtain ⟨rfl, hother, hp⟩ := hr
  revert s r
  refine Follows.bind (follows_allocate _ _ _ _) fun i j => ?_
  refine Steps.bind (h (Pairing.holds_place i j scope')) fun _ => ?_
  exact steps_release hok (subset_cons_self _ _) (subset_cons_self _ _) hother

/-! ## Conversions -/

theorem agrees_own : Agrees (own ctx kind) (own (ctx.reusing reuse) kind) := by
  refine (agrees_peek 0).bind fun top => ?_
  cases top.type with
  | none => exact .pure _
  | some t => exact .ite (fun _ => agrees_emit rfl _ _) fun _ => .pure _

theorem agrees_emitStep (target : Ty) (p : ConversionStep) :
    Agrees (emitStep ctx kind target p) (emitStep (ctx.reusing reuse) kind target p) := by
  cases p with
  | box t => exact agrees_own.bind fun _ => agrees_emitConstant rfl _ _
  | unbox t | cast t | retag t => exact agrees_emitConstant rfl _ _
  | widen t | narrow t => exact agrees_emit rfl _ _

theorem agrees_emitSteps (target : Ty) (ps : List ConversionStep) :
    Agrees (emitSteps ctx kind target ps) (emitSteps (ctx.reusing reuse) kind target ps) := by
  induction ps with
  | nil => exact .pure _
  | cons p ps ih => exact (agrees_emitStep target p).bind fun _ => ih

theorem agrees_convert (p : Plan) : Agrees (convert ctx kind p) (convert (ctx.reusing reuse) kind p) := by
  refine .ite (fun _ => .pure _) fun _ => (Agrees.needType _).bind fun target => ?_
  cases p.steps with
  | nil => exact (agrees_peek 0).bind fun _ => agrees_replaceTop _
  | cons q qs => exact agrees_emitSteps _ _

theorem agrees_deliver (p : Plan) : Agrees (deliver ctx kind p) (deliver (ctx.reusing reuse) kind p) :=
  (agrees_convert p).bind fun _ => agrees_own

/-! ## Values and variables -/

theorem agrees_checkProblem (node : Nat) :
    Agrees (checkProblem ctx kind node) (checkProblem (ctx.reusing reuse) kind node) := by
  unfold checkProblem
  cases ctx.captures.problem? node with
  | some p => exact .decline _ _
  | none => exact .pure _

theorem agrees_constantCode (v : Value) (t : Option Ty) : Agrees (constantCode v t) (constantCode v t) := by
  refine (Agrees.needType t).bind fun t => ?_
  split
  · exact agrees_emit rfl _ _
  · rename_i b _
    cases b with
    | true | false => exact agrees_emit rfl _ _
  · exact agrees_emitConstant rfl _ _
  · exact agrees_emitConstant rfl _ _

theorem agrees_defaultCode (t : Ty) : Agrees (defaultCode ctx kind t) (defaultCode (ctx.reusing reuse) kind t) := by
  unfold defaultCode
  cases ctx.types.storage t with
  | scalar | aggregate => exact agrees_emitConstant rfl _ _
  | reference | interface => exact agrees_emit rfl _ _

theorem agrees_useHostCell (cell : Loc) : Agrees (useHostCell cell) (useHostCell cell) := by
  intro w s t hp u s' h
  obtain rfl := modify_eq_ok.1 h
  refine ⟨u, _, rfl, rfl, ?_⟩
  dsimp only
  rw [hp.hostCells]
  split_ifs
  · exact hp
  · exact { hp with hostCells := rfl }

theorem agrees_hostVarCode (cell : Loc) (t : Ty) : Agrees (hostVarCode cell t) (hostVarCode cell t) :=
  (agrees_useHostCell cell).bind fun _ => agrees_emitConstant rfl _ _

theorem lookup_alike (h : List.Forall₂ (BindingAlike known) env env') (id : Nat) :
    (env.lookup id = none ∧ env'.lookup id = none) ∨
      ∃ b b', env.lookup id = some b ∧ env'.lookup id = some b' ∧ BindingAlike known (id, b) (id, b') := by
  induction h with
  | nil => exact .inl ⟨rfl, rfl⟩
  | @cons x y xs ys hxy _ ih =>
    obtain ⟨i, b⟩ := x
    obtain ⟨i', b'⟩ := y
    obtain rfl : i' = i := hxy.id
    by_cases hi : id = i'
    · subst hi
      exact .inr ⟨b, b', by simp, by simp, hxy⟩
    · have hne : (id == i') = false := by simpa using hi
      simpa only [lookup_cons, hne] using ih

theorem agrees_lookup (id : Nat) {x y : CodegenState → Codegen α}
    (hnone : ∀ {s t : CodegenState}, s.function.env.lookup id = none → t.function.env.lookup id = none →
      Agrees (x s) (y t))
    (hsome : ∀ {w : Pairing} {s t : CodegenState} {b b' : Binding}, s.function.env.lookup id = some b →
      t.function.env.lookup id = some b' → BindingAlike w.known (id, b) (id, b') → Steps w w (x s) (y t)) :
    Agrees (get >>= x) (get >>= y) := by
  intro w s t hp a s' h
  have hx : x s s = .ok a s' := h
  have hy : (get >>= y : Codegen α) t = y t t := rfl
  rw [hy]
  rcases lookup_alike hp.env id with ⟨he, he'⟩ | ⟨b, b', he, he', hb⟩
  · exact hnone (by rw [hp.left, he]) (by rw [hp.right, he']) w hp hx
  · exact hsome (by rw [hp.left, he]) (by rw [hp.right, he']) hb hp hx

theorem steps_load (h : BindingAlike w.known (id, b) (id, b')) (rs : List StackEntry) :
    Steps w w (emit kind b.place.load [b.index] rs) (emit kind b'.place.load [b'.index] rs) := by
  obtain ⟨-, hplace, -, hindex⟩ := h
  dsimp only at hplace hindex
  rw [hplace]
  cases hp : b.place with
  | slot =>
    rw [hp] at hindex
    exact steps_read rfl hindex rs
  | slotCell =>
    rw [hp] at hindex
    exact steps_read rfl hindex rs
  | free | freeCell =>
    rw [hp] at hindex
    rw [hindex]
    exact agrees_emit rfl _ _ w

theorem agrees_variableCode (v : Var) : Agrees (variableCode ctx v) (variableCode (ctx.reusing reuse) v) := by
  refine (agrees_checkProblem _).bind fun _ => ?_
  refine agrees_lookup v.id (fun he he' => ?_) fun he he' hb => ?_
  · rw [he, he']
    exact .decline _ _
  · rw [he, he']
    exact steps_load hb _

/-! ## Receivers and calls -/

theorem agrees_materialize (h : Agrees x y) : Agrees (materialize kind t x) (materialize kind t y) :=
  agrees_withTemp fun hij => (steps_storeLocal hij).bind fun _ =>
    (steps_read rfl mem_cons_self _).bind fun _ => h _

theorem agrees_withReceiver (hr : Agrees receiver receiver') (h : Agrees x y) :
    Agrees (withReceiver ctx kind t path receiver x) (withReceiver (ctx.reusing reuse) kind t path receiver' y) :=
  hr.bind fun _ => .ite (fun _ => h) fun _ => agrees_own.bind fun _ => agrees_materialize h

theorem agrees_callCode (hop : isUniform op = true) (m : Method) : Agrees (callCode kind op m) (callCode kind op m) :=
  (agrees_constant _).bind fun _ => agrees_emit hop _ _

theorem agrees_planEach (reason : Nat → PlanError → Declined) (i : Nat) (params : List (Option Ty))
    (es : List Expr) (acc : List Plan) :
    Agrees (planEach ctx kind reason i params es acc) (planEach (ctx.reusing reuse) kind reason i params es acc) := by
  induction params generalizing i es acc with
  | nil => exact .pure _
  | cons p ps ih =>
    cases es with
    | nil => exact .pure _
    | cons e es => exact (Agrees.planned _ _).bind fun plan => ih _ _ _

theorem agrees_planArgs (params : List (Option Ty)) (args : List Expr) :
    Agrees (planArgs ctx kind params args) (planArgs (ctx.reusing reuse) kind params args) :=
  .ite (fun _ => .decline _ _) fun _ => .ite (fun _ => .decline _ _) fun _ => agrees_planEach _ _ _ _ _

theorem isUniform_of_callTarget {U : Universe} {target : Method} (h : callTarget? U t m = some (op, target)) :
    isUniform op = true := by
  unfold callTarget? dispatch at h
  split at h
  · rename_i op' target' hd
    split_ifs at h
    cases h
    split_ifs at hd
    all_goals
      rw [← (Prod.mk.inj hd).1]
      rfl
  · cases h

theorem agrees_callOnCode {t : Option Ty} (hr : Agrees receiver receiver')
    (hargs : ∀ plans, Agrees (argsCode plans) (argsCode' plans)) :
    Agrees (callOnCode ctx kind t path m args receiver argsCode)
      (callOnCode (ctx.reusing reuse) kind t path m args receiver' argsCode') := by
  refine (agrees_planArgs _ _).bind fun plans => (Agrees.needType t).bind fun t => ?_
  cases hc : callTarget? ctx.types t m with
  | none => exact .decline _ _
  | some p =>
    obtain ⟨op, target⟩ := p
    have hcall : Agrees (do argsCode plans; callCode kind op target : Codegen Unit)
        (do argsCode' plans; callCode kind op target) :=
      (hargs plans).bind fun _ => agrees_callCode (isUniform_of_callTarget hc) target
    exact .ite (fun _ => agrees_withReceiver hr hcall) fun _ => hr.bind fun _ => hcall

theorem agrees_callStaticCode (hargs : ∀ plans, Agrees (argsCode plans) (argsCode' plans)) :
    Agrees (callStaticCode ctx m args argsCode) (callStaticCode (ctx.reusing reuse) m args argsCode') :=
  (agrees_planArgs _ _).bind fun plans => (hargs plans).bind fun _ => agrees_callCode rfl m

theorem agrees_fieldCode {f : Field} {object object' : Codegen Unit} (h : Agrees object object') :
    Agrees (fieldCode ctx f object) (fieldCode (ctx.reusing reuse) f object') := by
  refine h.bind fun _ => (agrees_peek 0).bind fun top => (Agrees.needType _).bind fun t => ?_
  cases ctx.types.storage t with
  | aggregate =>
    exact .ite (fun _ => agrees_emit rfl _ _) fun _ => agrees_materialize (agrees_emit rfl _ _)
  | reference => exact agrees_emit rfl _ _
  | scalar | interface => exact .decline _ _

/-! ## Construction -/

theorem agrees_planCtor (ctor : Option Method) (args : List Expr) :
    Agrees (planCtor ctx kind ctor args) (planCtor (ctx.reusing reuse) kind ctor args) := by
  cases ctor with
  | none => exact .pure _
  | some c => exact .ite (fun _ => .decline _ _) fun _ => agrees_planArgs _ _

theorem agrees_newCode {ctor : Option Method} (hargs : ∀ plans, Agrees (argsCode plans) (argsCode' plans)) :
    Agrees (newCode ctx kind t ctor args argsCode) (newCode (ctx.reusing reuse) kind t ctor args argsCode') := by
  refine .ite (fun _ => .decline _ _) fun _ => (agrees_planCtor _ _).bind fun plans => ?_
  cases ctx.types.storage t with
  | aggregate =>
    refine (agrees_constant _).bind fun _ => (agrees_emit rfl _ _).bind fun _ => ?_
    cases ctor with
    | none => exact .pure _
    | some c =>
      refine agrees_withTemp fun hij => (steps_storeLocal hij).bind fun _ => ?_
      refine (steps_read rfl mem_cons_self _).bind fun _ => (hargs plans _).bind fun _ => ?_
      exact (agrees_callCode rfl c _).bind fun _ => steps_read rfl mem_cons_self _
  | reference =>
    refine (agrees_constant _).bind fun _ => (agrees_emit rfl _ _).bind fun _ => ?_
    cases ctor with
    | none => exact .pure _
    | some c =>
      exact (agrees_emit rfl _ _).bind fun _ => (hargs plans).bind fun _ => agrees_callCode rfl c
  | scalar | interface => exact .decline _ _

def MemberStore.IsUniform : MemberStore → Prop
  | .field _ => True
  | .setter op _ => isUniform op = true

theorem memberStore_cases (ctx : Context) (kind : Kind) (t : Ty) (m : Member) :
    (∃ e, memberStore ctx kind t m = throw e) ∨
      ∃ target, MemberStore.IsUniform target ∧ memberStore ctx kind t m = pure target := by
  cases m with
  | field f => exact .inr ⟨.field f.index, trivial, rfl⟩
  | property p =>
    cases hset : p.setter with
    | none => exact .inl ⟨_, by simp only [memberStore, hset]; rfl⟩
    | some m =>
      cases hc : callTarget? ctx.types t m with
      | none => exact .inl ⟨_, by simp only [memberStore, hset, hc]; rfl⟩
      | some x =>
        obtain ⟨op, target⟩ := x
        exact .inr ⟨.setter op target, isUniform_of_callTarget hc, by simp only [memberStore, hset, hc]⟩

theorem agrees_storeMemberCode {m : Member} {keep : Bool} {value value' : Codegen Unit} (h : Agrees value value') :
    Agrees (storeMemberCode ctx kind t m source keep value)
      (storeMemberCode (ctx.reusing reuse) kind t m source keep value') := by
  refine (Agrees.planned _ _).bind fun plan => ?_
  rcases memberStore_cases ctx kind t m with ⟨e, he⟩ | ⟨target, htarget, he⟩
  · rw [he]
    exact Agrees.throw e _
  have he' : memberStore (ctx.reusing reuse) kind t m = pure target := he
  rw [he, he']
  refine .pure_bind (h.bind fun _ => (agrees_deliver plan).bind fun _ => ?_)
  cases target with
  | field i =>
    exact .ite (fun _ => (agrees_peek 0).bind fun v => (agrees_peek 1).bind fun r =>
      (agrees_emit rfl _ _).bind fun _ => agrees_emit rfl _ _) fun _ => agrees_emit rfl _ _
  | setter op m =>
    exact .ite (fun _ => (agrees_peek 0).bind fun v => (agrees_peek 1).bind fun r =>
      (agrees_emit rfl _ _).bind fun _ => agrees_callCode htarget m) fun _ => agrees_callCode htarget m

theorem agrees_initCode {new new' : Codegen Unit} {bindings bindings' : Codegen Unit → Codegen Unit}
    (hnew : Agrees new new')
    (h : ∀ {w : Pairing} {push push' : Codegen Unit}, Steps w w push push' → Steps w w (bindings push)
      (bindings' push')) :
    Agrees (initCode ctx t new bindings) (initCode (ctx.reusing reuse) t new' bindings') := by
  refine hnew.bind fun _ => .ite (fun _ w => h (agrees_emit rfl _ _ w)) fun _ => ?_
  refine agrees_withTemp fun hij => (steps_storeLocal hij).bind fun _ => ?_
  exact (h (steps_read rfl mem_cons_self _)).bind fun _ => steps_read rfl mem_cons_self _

/-! ## Operators -/

theorem agrees_convertCode {target : Option Ty} (h : Agrees operand operand') :
    Agrees (convertCode ctx source target operand) (convertCode (ctx.reusing reuse) source target operand') :=
  (Agrees.planned _ _).bind fun plan => h.bind fun _ => agrees_convert plan

theorem agrees_join (other : StackEntry) : Agrees (join kind other) (join kind other) :=
  (agrees_peek 0).bind fun _ => agrees_replaceTop _

theorem Paired.swap {t : CodegenState} {x y : Nat × SlotPairs} {opened : List (Nat × SlotPairs)}
    (h : Paired { w with opened := x :: y :: opened } s t) : Paired { w with opened := y :: x :: opened } s t := by
  have hsame : ∀ z, z ∈ x :: y :: opened ↔ z ∈ y :: x :: opened := fun z => by
    simp only [mem_cons]
    exact or_left_comm
  have hok : Pairing.Ok { w with opened := y :: x :: opened } := ⟨h.known, h.env⟩
  obtain ⟨P, hP⟩ := h.code
  exact
    { hok, h with
      code := ⟨P,
        { hP with
          jumps := fun hp hj => (hP.jumps hp hj).imp (fun ⟨z, hz, ho⟩ => ⟨z, (hsame z).1 hz, ho⟩) id
          opened := fun z hz => hP.opened z ((hsame z).2 hz) }⟩ }

/-- **The second of two branches.** A jump around it ends the first branch, and the jump to it is patched.
Both carry what agreed in front of the branches, which each branch leaves as it is. -/
theorem steps_otherBranch {es : Array StackEntry} {o : Nat} {second second' last last' : Codegen Unit}
    (h : Agrees second second') (hlast : Agrees last last') :
    Steps { w with opened := (o, w.known) :: w.opened } w
      (do
        let toEnd ← emitJump kind .jump
        restore es
        patchJump kind (o + 1)
        second
        patchJump kind toEnd
        last)
      (do
        let toEnd ← emitJump kind .jump
        restore es
        patchJump kind (o + 1)
        second'
        patchJump kind toEnd
        last') := by
  refine Follows.bind (steps_emitJump (.inl rfl)) fun a b s t hr => ?_
  obtain ⟨rfl, o', rfl, hp⟩ := hr
  have hp' := hp.swap
  revert s t
  intro s t _ hp'
  have hrestore := agrees_restore es { w with opened := (o, w.known) :: (o', w.known) :: w.opened }
  refine hrestore.bind (fun _ => ?_) hp'
  refine (steps_patchJump (List.Subset.refl w.known)).bind fun _ => (h _).bind fun _ => ?_
  exact (steps_patchJump (List.Subset.refl w.known)).bind fun _ => hlast w

theorem agrees_joined (first : Option StackEntry) : Agrees (match first with
      | some e => join kind e
      | none => pure ()) (match first with
      | some e => join kind e
      | none => pure ()) := by
  cases first with
  | none => exact .pure _
  | some e => exact agrees_join e

theorem agrees_condCode {void : Bool} {test test' a a' b b' : Codegen Unit} (ht : Agrees test test')
    (ha : Agrees a a') (hb : Agrees b b') : Agrees (condCode void test a b) (condCode void test' a' b') := by
  refine ht.bind fun _ w => Follows.bind (steps_emitJump (.inr rfl)) fun o o' s t hr => ?_
  obtain ⟨rfl, o, rfl, hp⟩ := hr
  refine Steps.bind (agrees_snapshot _) (fun es => (ha _).bind fun _ => ?_) hp
  cases void with
  | true => exact Steps.bind (Agrees.pure _ _) fun first => steps_otherBranch hb (agrees_joined first)
  | false =>
    exact Steps.bind (Agrees.map _ (agrees_peek 0) _) fun first => steps_otherBranch hb (agrees_joined first)

theorem agrees_logicalCode {isAnd : Bool} (hl : Agrees left left') (hr : Agrees right right') :
    Agrees (logicalCode isAnd left right) (logicalCode isAnd left' right') := by
  refine hl.bind fun _ w => Follows.bind (steps_emitJump (.inr rfl)) fun o o' s t hp => ?_
  obtain ⟨rfl, o, rfl, hp⟩ := hp
  refine Steps.bind (agrees_snapshot _) (fun es => ?_) hp
  cases isAnd with
  | true =>
    exact (hr _).bind fun _ => steps_otherBranch (agrees_emit rfl _ _) (agrees_replaceTop _)
  | false =>
    exact (agrees_emit rfl _ _ _).bind fun _ => steps_otherBranch hr (agrees_replaceTop _)

theorem isUniform_operatorOpcode (U : Universe) (op : BinaryOp) (l r : Option Ty) :
    isUniform (operatorOpcode U op l r) = true := by
  cases op <;> simp only [operatorOpcode] <;> (try split_ifs) <;> rfl

theorem agrees_strictCode {op : BinaryOp} {l r : Option Ty} (hl : Agrees left left') (hr : Agrees right right') :
    Agrees (strictCode (operator? ctx.types op l r) t left right)
      (strictCode (operator? (ctx.reusing reuse).types op l r) t left' right') := by
  unfold operator?
  split_ifs
  · exact .decline _ _
  · exact hl.bind fun _ => hr.bind fun _ => agrees_emit (isUniform_operatorOpcode _ _ _ _) _ _

theorem agrees_unaryCode {op : UnaryOp} {t : Option Ty} (h : Agrees operand operand') :
    Agrees (unaryCode op t operand) (unaryCode op t operand') := by
  refine h.bind fun _ => (Agrees.needType t).bind fun t => agrees_emit ?_ _ _
  cases op <;> rfl

/-! ## Assignments -/

theorem agrees_dupResult : Agrees dupResult dupResult := (agrees_peek 0).bind fun _ => agrees_emit rfl _ _

theorem agrees_valueCode (plan : Plan) (h : Agrees code code') :
    Agrees (valueCode ctx plan code) (valueCode (ctx.reusing reuse) plan code') :=
  h.bind fun _ => agrees_deliver plan

theorem agrees_planAssign (source target : Option Ty) :
    Agrees (planAssign ctx source target) (planAssign (ctx.reusing reuse) source target) := .planned _ _

theorem steps_store (h : BindingAlike w.known (id, b) (id, b')) (hop : b.place.store? = some op) :
    Steps w w (emit kind op [b.index] []) (emit kind op [b'.index] []) := by
  obtain ⟨-, -, -, hindex⟩ := h
  dsimp only at hindex
  cases hp : b.place with
  | slot =>
    rw [hp] at hindex hop
    cases hop
    exact steps_storeKnown hindex
  | slotCell =>
    rw [hp] at hindex hop
    cases hop
    exact steps_read rfl hindex _
  | free =>
    rw [hp] at hop
    cases hop
  | freeCell =>
    rw [hp] at hindex hop
    cases hop
    rw [hindex]
    exact agrees_emit rfl _ _ w

theorem agrees_assignVarCode (h : Agrees code code') :
    Agrees (assignVarCode ctx v source code) (assignVarCode (ctx.reusing reuse) v source code') := by
  refine (agrees_planAssign _ _).bind fun plan => ?_
  refine agrees_lookup v.id (fun he he' => ?_) fun {w s t b b'} he he' hb => ?_
  · rw [he, he']
    exact .decline _ _
  rw [he, he']
  dsimp only
  rw [show b'.place = b.place from hb.place]
  cases hop : b.place.store? with
  | none => exact .throw _ _
  | some op =>
    exact (agrees_valueCode plan h w).bind fun _ => (agrees_dupResult w).bind fun _ => steps_store hb hop

theorem agrees_assignHostCode {cell : Loc} (h : Agrees code code') :
    Agrees (assignHostCode ctx cell t source code) (assignHostCode (ctx.reusing reuse) cell t source code') :=
  (agrees_planAssign _ _).bind fun plan => (agrees_valueCode plan h).bind fun _ =>
    (agrees_useHostCell cell).bind fun _ => agrees_dupResult.bind fun _ => agrees_emitConstant rfl _ _

theorem agrees_assignMemberCode {object : Option Ty} {m : Member} {objectCode objectCode' : Codegen Unit}
    (ho : Agrees objectCode objectCode') (h : Agrees code code') :
    Agrees (assignMemberCode ctx object path m source objectCode code)
      (assignMemberCode (ctx.reusing reuse) object path m source objectCode' code') :=
  (agrees_planAssign _ _).bind fun _ => (Agrees.needType _).bind fun _ => .ite (fun _ => .decline _ _) fun _ =>
    .ite (fun _ => .decline _ _) fun _ => ho.bind fun _ => agrees_storeMemberCode h

theorem agrees_assignIndexCode (ha : Agrees array array') (hi : Agrees index index') (h : Agrees code code') :
    Agrees (assignIndexCode ctx elem source array index code)
      (assignIndexCode (ctx.reusing reuse) elem source array' index' code') :=
  (agrees_planAssign _ _).bind fun plan => ha.bind fun _ => hi.bind fun _ =>
    (agrees_valueCode plan h).bind fun _ => (agrees_peek 0).bind fun _ => (agrees_peek 1).bind fun _ =>
      (agrees_peek 2).bind fun _ => (agrees_emit rfl _ _).bind fun _ => agrees_emit rfl _ _

/-! ## Blocks -/

theorem Paired.envs {t : CodegenState} (h : Paired w s t) :
    List.Forall₂ (BindingAlike w.known) s.function.env t.function.env := by
  rw [h.left, h.right]
  exact h.env

theorem Paired.rebind {t : CodegenState} (h : Paired w s t) (henv : List.Forall₂ (BindingAlike w.known) env env') :
    Paired { w with left := env, right := env' } { s with function := { s.function with env := env } }
      { t with function := { t.function with env := env' } } :=
  have hok : Pairing.Ok { w with left := env, right := env' } := ⟨h.known, henv⟩
  { hok, h with left := rfl, right := rfl }

/-- The pairing is kept by another one: no jump was opened, and what was in use and agreed still is and
does. -/
structure Pairing.Keeps (w w' : Pairing) : Prop where
  image : w'.image = w.image
  image' : w'.image' = w.image'
  opened : w'.opened = w.opened
  live : w.live ⊆ w'.live
  known : w.known ⊆ w'.known

theorem Pairing.Keeps.refl (w : Pairing) : w.Keeps w :=
  ⟨rfl, rfl, rfl, List.Subset.refl _, List.Subset.refl _⟩

theorem Pairing.Keeps.trans (h : w.Keeps w') (h' : w'.Keeps w'') : w.Keeps w'' :=
  ⟨h'.image.trans h.image, h'.image'.trans h.image', h'.opened.trans h.opened,
    List.Subset.trans h.live h'.live, List.Subset.trans h.known h'.known⟩

theorem Pairing.keeps_learn (w : Pairing) (i j : Nat) : w.Keeps (w.learn i j) :=
  ⟨rfl, rfl, rfl, List.Subset.refl _, subset_cons_self _ _⟩

theorem Pairing.keeps_place (w : Pairing) (i j : Nat) (scope : Int) : w.Keeps (w.place i j scope) :=
  ⟨rfl, rfl, rfl, subset_cons_self _ _, List.Subset.refl _⟩

def Declares (w w' : Pairing) (x y : Codegen α) : Prop :=
  Follows (Paired w') (fun a b s t => b = a ∧ ∃ w'', w.Keeps w'' ∧ Paired w'' s t) x y

namespace Declares

variable {β : Type} {x y : Codegen α} {f g : α → Codegen β}

theorem of_keeps (hw : w.Keeps w') (h : Declares w' w' x y) : Declares w w' x y := by
  intro s t hp a s' hx
  obtain ⟨b, t', ht, he, w'', hw', hp'⟩ := h hp hx
  exact ⟨b, t', ht, he, w'', hw.trans hw', hp'⟩

theorem after (h : Steps w w' x y) (hw : w.Keeps w') (hf : ∀ a, Declares w' w' (f a) (g a)) :
    Declares w w (x >>= f) (y >>= g) := by
  refine Follows.bind h fun a b s t hr => ?_
  obtain ⟨rfl, hp⟩ := hr
  exact of_keeps hw (hf b) hp

theorem bind (h : Declares w w x y) (hf : ∀ a w', w.Keeps w' → Declares w' w' (f a) (g a)) :
    Declares w w (x >>= f) (y >>= g) := by
  refine Follows.bind h fun a b s t hr => ?_
  obtain ⟨rfl, w', hw, hp⟩ := hr
  exact of_keeps hw (hf b w' hw) hp

theorem pure (a : α) : Declares w w (pure a) (pure a) := fun s t hp b s' h => by
  obtain ⟨rfl, rfl⟩ := pure_eq_ok.1 h
  exact ⟨a, t, rfl, rfl, w, .refl w, hp⟩

end Declares

theorem declares_bindVariable (hij : (i, j) ∈ w.known) :
    Declares w w (bindVariable ctx kind v number i) (bindVariable (ctx.reusing reuse) kind v number j) := by
  -- whether the variable moves to a cell or not, its slots agree
  have hbind : ∀ place : Place, place = .slot ∨ place = .slotCell →
      Declares w w (modifyFunction fun f => { f with env := (v.id, ⟨place, i, number⟩) :: f.env })
        (modifyFunction fun f => { f with env := (v.id, ⟨place, j, number⟩) :: f.env }) := by
    intro place hplace s t hp u s' h
    obtain rfl := modify_eq_ok.1 h
    have henv : List.Forall₂ (BindingAlike w.known) ((v.id, ⟨place, i, number⟩) :: s.function.env)
        ((v.id, ⟨place, j, number⟩) :: t.function.env) := by
      refine .cons ⟨rfl, rfl, rfl, ?_⟩ hp.envs
      rcases hplace with rfl | rfl
      · exact hij
      · exact hij
    refine ⟨(), _, rfl, rfl, _, ?_, hp.rebind henv⟩
    exact ⟨rfl, rfl, rfl, List.Subset.refl _, List.Subset.refl _⟩
  unfold bindVariable
  by_cases hmode : (number.map ctx.captures.mode).getD .none = .byReference
  · simp only [hmode, if_true]
    exact .after (steps_makeCell hij) (.refl w) fun _ => hbind .slotCell (.inr rfl)
  · simp only [hmode, if_false]
    exact hbind .slot (.inl rfl)

theorem Declares.allocate {t : Option Ty} {name : String} {m : CaptureMode} {f g : Nat → Codegen α}
    (h : ∀ (w' : Pairing) (i j : Nat), w.Keeps w' → w'.Holds (i, j) → Declares w' w' (f i) (g j)) :
    Declares w w (allocate kind t name m scope >>= f) (Codegen.allocate kind t name m scope >>= g) := by
  refine Follows.bind (follows_allocate _ _ _ _) fun i j => ?_
  have hplace := w.keeps_place i j scope
  exact Declares.of_keeps hplace (h _ i j hplace (Pairing.holds_place i j scope))

theorem declares_store {rest rest' : Codegen Unit} (hij : w.Holds (i, j))
    (hrest : ∀ w', w.Keeps w' → Declares w' w' rest rest') :
    Declares w w (do
      emit kind .storeLocal [i] []
      bindVariable ctx kind v number i
      rest) (do
      emit kind .storeLocal [j] []
      bindVariable (ctx.reusing reuse) kind v number j
      rest') := by
  have hlearn := w.keeps_learn i j
  refine .after (steps_storeLocal hij) hlearn fun _ => ?_
  exact .bind (declares_bindVariable mem_cons_self) fun _ w' hw => hrest w' (hlearn.trans hw)

theorem declares_declareAll (block : Nat) (scope : Int) (vs : List Var) :
    Declares w w (declareAll ctx block scope vs) (declareAll (ctx.reusing reuse) block scope vs) := by
  induction vs generalizing w with
  | nil => exact .pure _
  | cons v vs ih =>
    refine .allocate fun w' i j _ hij => .after (agrees_defaultCode v.type _) (.refl _) fun _ => ?_
    exact declares_store hij fun _ _ => ih

theorem steps_leave (hw : w.Keeps w') (hok : w.Ok) (hother : ∀ x ∈ w.live, x.scope ≠ scope) :
    Follows (Paired w') (fun a b s t => b = a ∧ Paired w s t)
      (do release kind scope; modifyFunction fun f => { f with env := w.left })
      (do release kind scope; modifyFunction fun f => { f with env := w.right }) := by
  intro s t hp u s' h
  obtain ⟨_, s₁, hrel, hmod⟩ := bind_eq_ok.1 h
  obtain ⟨a', ha, rfl⟩ := release_eq_ok hrel
  obtain rfl := modify_eq_ok.1 hmod
  obtain ⟨b', hb, hmatched, hle, hle'⟩ := hp.slots.release ha hw.live hother
  have hback := hp.rebind (hok.env.imp fun _ _ hx => hx.mono hw.known)
  have hslots := hback.reslot hmatched (Nat.le_of_eq hle.symm) (Nat.le_of_eq hle'.symm) hw.known
    ⟨hok.known, hok.env⟩
  refine ⟨(), { t with function := { t.function with slots := b', env := w.right } }, ?_, rfl, ?_⟩
  · refine bind_eq_ok.2 ⟨(), { t with function := { t.function with slots := b' } }, ?_, rfl⟩
    refine bind_eq_ok.2 ⟨_, _, get_eq_ok.2 ⟨rfl, rfl⟩, ?_⟩
    simp only [hb]
    rfl
  · have himage := hw.image
    have himage' := hw.image'
    have hopened := hw.opened
    obtain ⟨image, image', opened, live, known, left, right⟩ := w
    cases himage
    cases himage'
    cases hopened
    exact hslots

theorem agrees_blockCode {vars : List Var} {body body' : Codegen Unit} (h : Agrees body body') :
    Agrees (blockCode ctx id vars body) (blockCode (ctx.reusing reuse) id vars body') := by
  refine (agrees_checkProblem id).bind fun _ w s t hp => ?_
  have hok := hp.toOk
  -- each side remembers its own variables
  have hrest : Steps w w
      (do
        let scope ← openScope
        declareAll ctx id scope vars
        body
        release .block scope
        modifyFunction fun f => { f with env := w.left })
      (do
        let scope ← openScope
        declareAll (ctx.reusing reuse) id scope vars
        body'
        release .block scope
        modifyFunction fun f => { f with env := w.right }) := by
    refine Follows.bind follows_openScope fun scope scope' s t hr => ?_
    obtain ⟨rfl, hother, hp⟩ := hr
    revert s t
    refine Follows.bind (declares_declareAll id scope' vars) fun _ _ s t hr => ?_
    obtain ⟨-, w', hw, hp⟩ := hr
    revert s t
    refine Follows.bind (h w') fun _ _ s t hr => ?_
    exact steps_leave hw hok hother hr.2
  have hrun := hrest hp
  rw [← hp.left, ← hp.right] at hrun
  exact fun a s' hs => hrun hs

/-! ## Delegates and arrays -/

theorem agrees_applyCode {signature : Option (List Ty × Option Ty)} {function function' : Codegen Unit}
    (hf : Agrees function function') (hargs : ∀ plans, Agrees (argsCode plans) (argsCode' plans)) :
    Agrees (applyCode ctx signature args function argsCode)
      (applyCode (ctx.reusing reuse) signature args function' argsCode') := by
  cases signature with
  | none => exact .fault _ _
  | some p =>
    exact (agrees_planArgs _ _).bind fun plans => hf.bind fun _ => (hargs plans).bind fun _ =>
      agrees_emit rfl _ _

theorem agrees_newArrayCode {elem : Ty} {length length' : Codegen Unit} (h : Agrees length length') :
    Agrees (newArrayCode elem length) (newArrayCode elem length') :=
  h.bind fun _ => agrees_emitConstant rfl _ _

theorem agrees_arrayOfCode {elem : Ty} {items : List Expr} {itemsCode itemsCode' : List Plan → Codegen Unit}
    (h : ∀ plans, Agrees (itemsCode plans) (itemsCode' plans)) :
    Agrees (arrayOfCode ctx elem items itemsCode) (arrayOfCode (ctx.reusing reuse) elem items itemsCode') :=
  (agrees_planEach _ _ _ _ _).bind fun plans => (h plans).bind fun _ => (agrees_constant _).bind fun _ =>
    agrees_emit rfl _ _

theorem agrees_indexCode (ha : Agrees array array') (hi : Agrees index index') :
    Agrees (indexCode elem array index) (indexCode elem array' index') :=
  ha.bind fun _ => hi.bind fun _ => (Agrees.needType _).bind fun _ => agrees_emit rfl _ _

theorem agrees_lengthCode (h : Agrees array array') :
    Agrees (lengthCode array) (lengthCode array') := h.bind fun _ => agrees_emit rfl _ _

end TreeMachine.Codegen
