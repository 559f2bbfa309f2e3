import TreeMachine.Proofs.Host.Bodies
import TreeMachine.Walk.Program

/-!
# Evaluating trees keeps correspondences

The evaluation of a tree passes on values and stores them, and looks at a delegate only to call it. So it keeps
every correspondence that the host keeps (`Walk.evals_eval`), and so does calling a lambda of a tree
(`Walk.agrees_callFromHost`). The two evaluations run under contexts that differ in how delegates and lambdas
are called.
-/

open List

namespace TreeMachine

open Walk TreeMachine.Expr

/-- The trees that may be evaluated. Delegates that belong together are lambdas of the same one, or functions in
code. -/
structure Correspondence.Trees (K : Correspondence) where
  Allows : K.World → Expr → Prop
  later {w w' : K.World} {e : Expr} : K.Later w w' → Allows w e → Allows w' e
  constant {w : K.World} {v : Value} {t : Option Ty} : Allows w (.constant v t) → K.Passes w v
  child {w : K.World} {e c : Expr} : Allows w e → c ∈ e.children → Allows w c
  same {w : K.World} {d d' : Delegate} : K.Delegates w d d' → d' = d ∨ ∃ c c', d = .compiled c ∧ d' = .compiled c'
  lambda {w : K.World} {l : Lambda} {name : String} {env : Environment} {depth : Int} :
    K.Delegates w (.evaluated l name env depth) (.evaluated l name env depth) ↔ Allows w l.body

namespace Walk

open Correspondence (Relates passes_plain)

variable {K : Correspondence} {w w' : K.World} {α β : Type} {P : K.World → α → Prop} {Q : K.World → β → Prop}
  {v : Value}

def Agrees (K : Correspondence) (w : K.World) (P : K.World → α → Prop) (x y : Eval α) : Prop :=
  ∀ n, K.Agrees w (fun w r => P w r.1) (x n) (y n)

abbrev Evals (K : Correspondence) (w : K.World) (x y : Eval Value) : Prop := Agrees K w K.Passes x y

abbrev EvalsAll (K : Correspondence) (w : K.World) (x y : Eval (List Value)) : Prop := Agrees K w K.PassesAll x y

abbrev EvalsItems (K : Correspondence) (w : K.World) (x y : Eval (Array Value)) : Prop :=
  Agrees K w (fun w vs => ∀ v ∈ vs, K.Passes w v) x y

theorem at_eq (ctx : Context) (kind : Kind) (x : Exec α) (n : Nat) :
    at_ ctx kind x n = (do return (← located ctx.function kind x, n)) := by
  funext s
  show at_ ctx kind x n s = EStateM.bind _ _ s
  unfold at_ EStateM.bind
  cases located ctx.function kind x s <;> rfl

theorem agrees_located {x y : Exec α} (h : K.Agrees w P x y) (function : String) (kind : Kind) :
    K.Agrees w P (located function kind x) (located function kind y) := by
  refine h.mapError _ fun e => ?_
  split <;> rfl

namespace Agrees

theorem later {x y : Eval α} (h : Agrees K w P x y) (hw : K.Later w w') : Agrees K w' P x y :=
  fun n => (h n).later hw

protected theorem bind {x y : Eval α} {f g : α → Eval β} (h : Agrees K w P x y)
    (hf : ∀ w' a, K.Later w w' → P w' a → Agrees K w' Q (f a) (g a)) : Agrees K w Q (x >>= f) (y >>= g) :=
  fun n => (h n).seq fun w' r hw hr => hf w' r.1 hw hr r.2

protected theorem pure {a : α} (h : ∀ w', K.Later w w' → P w' a) : Agrees K w P (pure a) (pure a) :=
  fun _ => .pure fun w' hw => ⟨rfl, h w' hw⟩

theorem value (h : K.Passes w v) : Evals K w (Pure.pure v) (Pure.pure v) := .pure fun _ hw => K.passes_later hw h

theorem plain (h : v.cell? = none) : Evals K w (Pure.pure v) (Pure.pure v) :=
  value (passes_plain h)

theorem lift {x y : Exec α} (h : K.Agrees w P x y) (hP : ∀ {w w' a}, K.Later w w' → P w a → P w' a) :
    Agrees K w P (liftM x) (liftM y) :=
  fun _ => h.seq fun _ _ _ ha => .pure fun _ hw => ⟨rfl, hP hw ha⟩

theorem liftValue {x y : Exec Value} (h : K.Agrees w K.Passes x y) : Evals K w (liftM x) (liftM y) :=
  lift h K.passes_later

theorem fail {c : Cause} (h : c.isCheck = false) :
    Agrees K w P (liftM (Exec.fail c : Exec α)) (liftM (Exec.fail c : Exec α)) :=
  fun _ w' _ _ _ hst => .error (K.refl w') hst (fun _ => h) nofun

protected theorem ite {c : Prop} [Decidable c] {x y x' y' : Eval α} (h : c → Agrees K w P x y)
    (h' : ¬c → Agrees K w P x' y') : Agrees K w P (if c then x else x') (if c then y else y') := by
  split
  · exact h ‹_›
  · exact h' ‹_›

theorem getStore_bind {f g : Store → Eval β}
    (h : ∀ w' s t, K.Later w w' → K.Stores w' s t → Agrees K w' Q (f s) (g t)) :
    Agrees K w Q (getThe Store >>= f) (getThe Store >>= g) :=
  fun n w' hw s t hst => h w' s t hw hst n (K.refl w') hst

variable {ctx ctx' : Context} (hctx : ctx'.function = ctx.function) {kind : Kind}
include hctx

theorem at_ {x y : Exec α} (h : K.Agrees w P x y) (hP : ∀ {w w' a}, K.Later w w' → P w a → P w' a) :
    Agrees K w P (at_ ctx kind x) (at_ ctx' kind y) := by
  intro n
  rw [at_eq, at_eq, hctx]
  exact (agrees_located h _ kind).seq fun _ _ _ ha => .pure fun _ hw => ⟨rfl, hP hw ha⟩

theorem atValue {x y : Exec Value} (h : K.Agrees w K.Passes x y) :
    Evals K w (Walk.at_ ctx kind x) (Walk.at_ ctx' kind y) := at_ hctx h K.passes_later

theorem locate {x y : Eval α} (h : Agrees K w P x y) : Agrees K w P (locate ctx kind x) (Walk.locate ctx' kind y) := by
  intro n
  unfold Walk.locate
  rw [hctx]
  exact agrees_located (h n) _ kind

end Agrees

/-! ## Conversions and operators -/

section Values

variable {U : Universe}

theorem agrees_integer (t : Option Ty) (n : Int64) : K.Agrees w K.Passes (integer U t n) (integer U t n) := by
  cases t with
  | some t => exact .plain rfl
  | none => exact .corrupt

theorem passes_toPrimitive (q : Option Primitive) (t : Option Ty) :
    K.Passes w (toPrimitive U v q) ∧ K.Passes w { toPrimitive U v q with type := t } := by
  have hnone : (toPrimitive U v q).cell? = none := by
    unfold toPrimitive
    split <;> split <;> rfl
  exact ⟨passes_plain hnone, passes_plain hnone⟩

theorem agrees_convertScalar (source target : Ty) (explicit : Bool) :
    K.Agrees w K.Passes (convertScalar U v source target explicit) (convertScalar U v source target explicit) := by
  refine .ite (fun _ => .fail rfl) fun _ => .ite (fun _ => .ite (fun _ => .value ?_) fun _ => .fail rfl) fun _ =>
    .ite (fun _ => .value (passes_toPrimitive _ none).1) fun _ => .fail rfl
  split
  · exact (passes_toPrimitive _ _).2
  · exact (passes_toPrimitive _ none).1

theorem agrees_unbox (v : Value) (target : Ty) : K.Agrees w K.Passes (unbox v target) (unbox v target) := by
  refine .ite (fun _ => .fail rfl) fun _ => .get_bind fun _ s t _ hst => ?_
  rw [(K.twins hst).payload, (K.twins hst).dynamicType]
  cases hp : s.payload? v with
  | none => exact .fail rfl
  | some p => exact .ite (fun _ => .value ((K.holds hst).payload hp)) fun _ => .fail rfl

theorem agrees_convertBetween (hv : K.Passes w v) (source target : Ty) (explicit : Bool) :
    K.Agrees w K.Passes (convertBetween U v source target explicit) (convertBetween U v source target explicit) :=
  .ite (fun _ => agrees_convertScalar source target explicit) fun _ =>
    .ite (fun _ => .ite (fun _ => .box hv) fun _ => .fail rfl) fun _ =>
    .ite (fun _ => .ite (fun _ => agrees_unbox v target) fun _ => .fail rfl) fun _ =>
    .ite (fun _ => .value hv) fun _ =>
    .ite (fun _ => (Relates.checkReference U v target).seq fun _ _ hw _ => .value (K.passes_later hw hv)) fun _ =>
      .fail rfl

theorem agrees_convert (hv : K.Passes w v) (source target : Option Ty) (explicit : Bool) :
    K.Agrees w K.Passes (convert U v source target explicit) (convert U v source target explicit) := by
  refine .ite (fun _ => .value hv) fun _ => ?_
  cases source with
  | none => exact .fail rfl
  | some a =>
    cases target with
    | none => exact .fail rfl
    | some b => exact agrees_convertBetween hv a b explicit

theorem agrees_arithmetic (op : BinaryOp) (a b : Value) :
    K.Agrees w K.Passes (arithmetic U op a b) (arithmetic U op a b) := by
  unfold arithmetic
  split
  · exact .plain rfl
  · unfold intOperator
    split
    · exact agrees_integer _ _
    · exact agrees_integer _ _
    · exact agrees_integer _ _
    · exact .ite (fun _ => .fail rfl) fun _ => .ite (fun _ => agrees_integer _ _) fun _ => agrees_integer _ _
  · exact .fail rfl

theorem agrees_operator (op : BinaryOp) (l r : Option Ty) (a b : Value) :
    K.Agrees w K.Passes (operator U op l r a b) (operator U op l r a b) := by
  refine .ite (fun _ => .plain rfl) fun _ => .ite (fun _ => agrees_arithmetic op a b) fun _ =>
    .ite (fun _ => .plain rfl) fun _ => .ite (fun _ => ?_) fun _ => .plain rfl
  exact (Relates.equal a b).seq fun _ _ _ _ => .plain rfl

theorem agrees_unaryOperator (op : UnaryOp) (v : Value) :
    K.Agrees w K.Passes (unaryOperator U op v) (unaryOperator U op v) := by
  unfold unaryOperator
  split
  · exact .plain rfl
  · exact .plain rfl
  · exact agrees_integer _ _

end Values

/-! ## Members and calls -/

abbrev Context.calling (ctx : Context) (call : Caller) (enter : Callee → List Value → Eval Value) : Context :=
  { ctx with call := call, enter := enter }

/-- The contexts keep the correspondence where they call methods, delegates and lambdas. -/
structure Context.Agrees (K : Correspondence) (T : K.Trees) (ctx : Context) (call : Caller)
    (enter : Callee → List Value → Eval Value) : Prop where
  routines : ∀ r ∈ ctx.host.routines, K.Routines ctx.types ctx.call call r
  call : K.Callers ctx.call call
  enter : ∀ {w : K.World} {c : Callee} {args : List Value}, T.Allows w c.lambda.body → K.PassesAll w args →
    Evals K w (ctx.enter c args) (enter c args)

variable {T : K.Trees} {ctx : Context} {call' : Caller} {enter' : Callee → List Value → Eval Value} {kind : Kind}
  {self : Value} {args : List Value}

theorem agrees_fieldsOf (self : Value) (f : Field) :
    K.Agrees w (fun w vs => ∀ v ∈ vs, K.Passes w v) (fieldsOf self f) (fieldsOf self f) := by
  refine .ite (fun _ => .fail rfl) fun _ => .get_bind fun _ s t _ hst => ?_
  rw [(K.twins hst).fields, (K.twins hst).dynamicType]
  exact .ite (fun _ => .pure fun _ hw => ⟨rfl, fun v hv => K.passes_later hw ((K.holds hst).fields self v hv)⟩)
    fun _ => .fail rfl

theorem agrees_implementation (static : Option Ty) (self : Value) (m : Method) :
    K.Agrees w (fun _ _ => True) (implementation ctx static self m)
      (implementation (ctx.calling call' enter') static self m) := by
  refine (Relates.dynamicType self).seq fun _ dynamic _ _ => (Relates.found _).seq fun _ impl _ _ => ?_
  cases impl with
  | none => exact .fail rfl
  | some impl => exact .result _

section Calls

variable (h : ctx.Agrees K T call' enter')
include h

theorem agrees_invoke (static : Option Ty) (m : Method) (hself : K.Passes w self) (hargs : K.PassesAll w args) :
    K.Agrees w K.Passes (invoke ctx static self m args) (invoke (ctx.calling call' enter') static self m args) := by
  have hrun : ∀ {w : K.World} (impl : Method) {self : Value}, K.Passes w self → K.PassesAll w args →
      K.Agrees w K.Passes (invoke.run ctx m args impl self) (invoke.run (ctx.calling call' enter') m args impl self) :=
    fun impl _ hself hargs =>
      ((Correspondence.agrees_invoke h.routines impl hself hargs).mapError (.inMethod impl) fun _ => rfl).seq
      fun _ result _ hv => .ite (fun _ => .clone hv) fun _ => .plain rfl
  refine .ite (fun _ => hrun m hself hargs) fun _ => .ite (fun _ => .fail rfl) fun _ => ?_
  refine (agrees_implementation static self m).seq fun _ impl hw _ => ?_
  refine .ite (fun _ => ?_) fun _ => hrun impl (K.passes_later hw hself) (hargs.later hw)
  exact (Relates.unboxed (K.passes_later hw hself)).seq fun _ v hw' hv => hrun impl hv (hargs.later (K.trans hw hw'))

theorem agrees_readMember (static : Option Ty) (hself : K.Passes w self) (m : Member) :
    K.Agrees w K.Passes (readMember ctx static self m) (readMember (ctx.calling call' enter') static self m) := by
  cases m with
  | field f =>
    exact (agrees_fieldsOf self f).seq fun w' _ _ hvs => .value (Store.forall_getD hvs (K.restricts w') _)
  | property p => exact agrees_invoke h static p.getter hself (forall_mem_nil _)

theorem agrees_writeMember (static : Option Ty) (hself : K.Passes w self) (m : Member) (hv : K.Passes w v) :
    K.Agrees w (fun _ _ => True) (writeMember ctx static self m v)
      (writeMember (ctx.calling call' enter') static self m v) := by
  cases m with
  | field f => exact (agrees_fieldsOf self f).seq fun _ _ hw _ => .setField self f.index (K.passes_later hw hv)
  | property p =>
    unfold writeMember
    dsimp only
    cases p.setter with
    | none => exact .fail rfl
    | some setter =>
      exact (agrees_invoke h static setter hself (forall_mem_singleton.2 hv)).seq fun _ _ _ _ => .result _

theorem agrees_construct (ctor : Method) (hself : K.Passes w self) (hargs : K.PassesAll w args) :
    K.Agrees w (fun _ _ => True) (construct ctx self ctor args) (construct (ctx.calling call' enter') self ctor args) :=
  ((Correspondence.agrees_invoke h.routines ctor hself hargs).mapError (.inMethod ctor) fun _ => rfl).seq fun _ _ _
    _ => .result _

end Calls

theorem agrees_allocate (t : Ty) : K.Agrees w K.Passes (allocate ctx t) (allocate (ctx.calling call' enter') t) := by
  refine .ite (fun _ => .fail rfl) fun _ => ?_
  cases ctx.types.storage t with
  | aggregate => exact .newAggregate _ t
  | reference => exact .newObject _ t
  | scalar | interface => exact .fail rfl

/-! ## Node by node -/

section Nodes

variable {x x' y y' z z' : Eval Value} {xs xs' : Eval (List Value)}

theorem Agrees.owning (hx : Evals K w x x') (source target : Option Ty) :
    Evals K w (owning ctx kind source target x) (owning (ctx.calling call' enter') kind source target x') :=
  hx.bind fun _ _ _ hv => (Agrees.atValue rfl (agrees_convert hv source target false)).bind fun _ _ _ hu =>
    .liftValue (.clone hu)

theorem Agrees.ownReceiver (hx : Evals K w x x') (temporary : Bool) :
    Evals K w (ownReceiver temporary x) (ownReceiver temporary x') :=
  hx.bind fun _ _ _ hv => .ite (fun _ => .liftValue (.clone hv)) fun _ => .value hv

theorem agrees_cellOf (env : Environment) (v : Var) : K.Agrees w (fun _ _ => True) (cellOf env v) (cellOf env v) := by
  unfold cellOf
  cases env.cell? v with
  | none => exact .fail rfl
  | some loc => exact .result _

theorem evals_var (env : Environment) (v : Var) :
    Evals K w (at_ ctx .parameter do return (← get).load (← cellOf env v))
      (at_ (ctx.calling call' enter') .parameter do return (← get).load (← cellOf env v)) := by
  refine Agrees.atValue rfl (.get_bind fun w' s t _ hst => (agrees_cellOf env v).seq fun _ loc hw _ => ?_)
  rw [(K.twins hst).load]
  exact .value (K.passes_later hw ((K.holds hst).load (K.restricts w') loc))

theorem Agrees.cond (hx : Evals K w x x') (hy : Evals K w y y') (hz : Evals K w z z') :
    Evals K w (evalCond x y z) (evalCond x' y' z') :=
  hx.bind fun _ _ hw _ => .ite (fun _ => hy.later hw) fun _ => hz.later hw

theorem Agrees.binary (hx : Evals K w x x') (hy : Evals K w y y') (op : BinaryOp) (l r : Option Ty) :
    Evals K w (evalBinary ctx op l r x y) (evalBinary (ctx.calling call' enter') op l r x' y') :=
  hx.bind fun _ a hw ha => .ite (fun _ => .ite (fun _ => .value ha) fun _ => hy.later hw) fun _ =>
    (hy.later hw).bind fun _ b _ _ => .atValue rfl (agrees_operator op l r a b)

theorem Agrees.unary (hx : Evals K w x x') (op : UnaryOp) :
    Evals K w (evalUnary ctx op x) (evalUnary (ctx.calling call' enter') op x') :=
  hx.bind fun _ v _ _ => .liftValue (agrees_unaryOperator op v)

theorem Agrees.convert (hx : Evals K w x x') (source target : Option Ty) :
    Evals K w (evalConvert ctx source target x) (evalConvert (ctx.calling call' enter') source target x') :=
  hx.bind fun _ _ _ hv => .atValue rfl (agrees_convert hv source target true)

theorem evals_store (loc : Loc) (hv : K.Passes w v) :
    Evals K w (do
      modifyThe Store fun s => s.store loc v
      return v) (do
      modifyThe Store fun s => s.store loc v
      return v) :=
  (Agrees.lift (Relates.store loc hv) fun _ h => h).bind fun _ _ hw _ => .value (K.passes_later hw hv)

theorem Agrees.assignVar (hx : Evals K w x x') (env : Environment) (v : Var) :
    Evals K w (assignVar ctx env v x) (assignVar (ctx.calling call' enter') env v x') :=
  (Agrees.at_ rfl (agrees_cellOf env v) fun _ h => h).bind fun _ loc hw _ => (hx.later hw).bind fun _ _ _ hu =>
    evals_store loc hu

theorem Agrees.assignHost (hx : Evals K w x x') (loc : Loc) :
    Evals K w (assignHost loc x) (assignHost loc x') := hx.bind fun _ _ _ hu => evals_store loc hu

theorem agrees_elementOf (array index : Value) :
    K.Agrees w (fun w r => ∀ v ∈ r.1, K.Passes w v) (elementOf ctx array index)
      (elementOf (ctx.calling call' enter') array index) := by
  refine .ite (fun _ => .fail rfl) fun _ => .get_bind fun _ s t _ hst => ?_
  rw [(K.twins hst).items]
  refine (Relates.getSome (P := fun w items => ∀ v ∈ items, K.Passes w v) fun _ _ hw hi v hv =>
    K.passes_later hw ((K.holds hst).items hi v hv)).seq fun _ items _ hitems => ?_
  exact .ite (fun _ => .fail rfl) fun _ => .pure fun _ hw => ⟨rfl, fun v hv => K.passes_later hw (hitems v hv)⟩

theorem Agrees.assignIndex (hx : Evals K w x x') (hy : Evals K w y y') (hz : Evals K w z z') :
    Evals K w (assignIndex ctx x y z) (assignIndex (ctx.calling call' enter') x' y' z') :=
  hx.bind fun _ a h₁ _ => (hy.later h₁).bind fun _ i h₂ _ => (hz.later (K.trans h₁ h₂)).bind fun _ _ _ hv =>
    (Agrees.at_ rfl (agrees_elementOf a i) fun hw h _ hv => K.passes_later hw (h _ hv)).bind fun _ r h₄ _ =>
      (Agrees.lift (Relates.setItem a r.2 (K.passes_later h₄ hv)) fun _ h => h).bind fun _ _ h₅ _ =>
        .value (K.passes_later (K.trans h₄ h₅) hv)

theorem Agrees.index (hx : Evals K w x x') (hy : Evals K w y y') :
    Evals K w (evalIndex ctx x y) (evalIndex (ctx.calling call' enter') x' y') :=
  hx.bind fun _ a h₁ _ => (hy.later h₁).bind fun _ i _ _ =>
    (Agrees.at_ rfl (agrees_elementOf a i) fun hw h _ hv => K.passes_later hw (h _ hv)).bind fun w' r _ hitems =>
      .value (Store.forall_getD hitems (K.restricts w') r.2)

theorem Agrees.length (hx : Evals K w x x') :
    Evals K w (evalLength ctx x) (evalLength (ctx.calling call' enter') x') := by
  refine hx.bind fun _ a _ _ => .atValue rfl (.ite (fun _ => .fail rfl) fun _ => .get_bind fun _ s t _ hst => ?_)
  rw [(K.twins hst).items]
  exact (Relates.found _).seq fun _ _ _ _ => .plain rfl

theorem Agrees.newArray (hx : Evals K w x x') (elem : Ty) :
    Evals K w (evalNewArray ctx elem x) (evalNewArray (ctx.calling call' enter') elem x') :=
  hx.bind fun _ _ _ _ => .atValue rfl (.ite (fun _ => .fail rfl) fun _ => .newArray _ elem _)

theorem Agrees.arrayOf {items items' : Eval (Array Value)} (h : EvalsItems K w items items') (elem : Ty) :
    Evals K w (evalArrayOf elem items) (evalArrayOf elem items') :=
  h.bind fun _ _ _ hvs => .liftValue (.newArrayOf elem hvs)

theorem Agrees.arguments {items items' : Eval (Array Value)} (h : EvalsItems K w items items') (params args : Nat) :
    EvalsAll K w (evalArgs params args items) (evalArgs params args items') :=
  .ite (fun _ => h.bind fun _ _ _ hvs => .pure fun _ hw v hv =>
    K.passes_later hw (hvs v (Array.mem_toList_iff.1 hv))) fun _ => .fail rfl

theorem evalsAll_one {operand operand' : Option Ty → Eval Value} (h : ∀ t, Evals K w (operand t) (operand' t))
    (params : List (Option Ty)) : EvalsAll K w (evalOne params operand) (evalOne params operand') := by
  unfold evalOne
  split
  · exact (h _).bind fun _ _ _ hv => .pure fun _ hw => forall_mem_singleton.2 (K.passes_later hw hv)
  · exact .fail rfl

theorem evalsAll_two {left left' right right' : Option Ty → Eval Value}
    (hl : ∀ t, Evals K w (left t) (left' t)) (hr : ∀ t, Evals K w (right t) (right' t))
    (params : List (Option Ty)) : EvalsAll K w (evalTwo params left right) (evalTwo params left' right') := by
  unfold evalTwo
  split
  · refine (hl _).bind fun _ a h₁ ha => ((hr _).later h₁).bind fun _ b h₂ hb => .pure fun _ hw => ?_
    exact forall_mem_cons.2 ⟨K.passes_later (K.trans h₂ hw) ha,
      forall_mem_singleton.2 (K.passes_later hw hb)⟩
  · exact .fail rfl

theorem agrees_zeros (U : Universe) (vars : List Var) : K.Agrees w K.PassesAll (zeros U vars) (zeros U vars) := by
  unfold zeros
  induction vars generalizing w with
  | nil => exact .pure fun _ _ => ⟨rfl, forall_mem_nil _⟩
  | cons v vars ih =>
    rw [mapM_cons]
    refine (Relates.zero U v.type).seq fun _ u _ hu => ih.seq fun _ us h₂ hus => .pure fun _ hw => ⟨rfl, ?_⟩
    exact forall_mem_cons.2 ⟨K.passes_later (K.trans h₂ hw) hu, hus.later hw⟩

theorem agrees_declareAll (U : Universe) (env : Environment) (vars : List Var) {values : List Value}
    (hvalues : K.PassesAll w values) :
    K.Agrees w (fun _ _ => True) (declareAll U env vars values) (declareAll U env vars values) := by
  unfold declareAll
  refine Relates.seq (P := fun _ _ => True) ?_ fun _ _ _ _ => .result _
  -- the cells are made one after the other
  have hpairs : ∀ p ∈ vars.zip values, K.Passes w p.2 := fun p hp => hvalues _ (of_mem_zip hp).2
  clear hvalues
  generalize vars.zip values = pairs at hpairs
  generalize ([] : Scope) = scope
  induction pairs generalizing w scope with
  | nil => exact .result _
  | cons p pairs ih =>
    obtain ⟨hp, hpairs⟩ := forall_mem_cons.1 hpairs
    rw [foldlM_cons]
    refine ((Relates.newCell U _ hp).seq fun _ _ _ _ => .result _).seq fun _ scope' hw _ => ?_
    exact ih (fun q hq => K.passes_later hw (hpairs q hq)) scope'

theorem evals_block {env : Environment} {body body' : Environment → Eval Value}
    (h : ∀ env, Evals K w (body env) (body' env)) (vars : List Var) (void : Bool) :
    Evals K w (evalBlock ctx env vars void body) (evalBlock (ctx.calling call' enter') env vars void body') := by
  refine (Agrees.lift (agrees_zeros _ vars) fun hw h => h.later hw).bind fun _ values h₁ hvalues => ?_
  refine (Agrees.lift (agrees_declareAll _ env vars hvalues) fun _ h => h).bind fun _ env' h₂ _ => ?_
  refine ((h env').later (K.trans h₁ h₂)).bind fun w' _ _ hlast => .value ?_
  split
  · exact passes_plain rfl
  · exact hlast

theorem Agrees.init {new new' : Eval Value} {bindings bindings' : Value → Eval Unit} (hnew : Evals K w new new')
    (h : ∀ w' obj, K.Later w w' → K.Passes w' obj → Agrees K w' (fun _ _ => True) (bindings obj) (bindings' obj)) :
    Evals K w (evalInit new bindings) (evalInit new' bindings') :=
  hnew.bind fun w₁ obj h₁ hobj => (h w₁ obj h₁ hobj).bind fun _ _ h₂ _ => .value (K.passes_later h₂ hobj)

theorem evals_lambda (env : Environment) (l : Lambda) (hl : T.Allows w l.body) :
    Evals K w (evalLambda ctx env l) (evalLambda (ctx.calling call' enter') env l) := by
  have hmake : ∀ name : String, Evals K w
      (do
        let loc ← Exec.step fun s => s.addDelegate (.evaluated l name env ctx.maxDepth)
        return (⟨some l.type, .delegate loc⟩ : Value))
      (do
        let loc ← Exec.step fun s => s.addDelegate (.evaluated l name env ctx.maxDepth)
        return ⟨some l.type, .delegate loc⟩) := fun name =>
    (Agrees.lift (.addDelegate fun _ hw => T.lambda.2 (T.later hw hl)) fun _ h => h).bind fun _ _ _ _ => .plain rfl
  unfold evalLambda
  split
  · -- the closure is counted first
    exact fun n => hmake _ (n + 1)
  · exact hmake l.name

section Calls

variable (h : ctx.Agrees K T call' enter')
include h

theorem Agrees.member (hx : Evals K w x x') (static : Option Ty) (temporary : Bool) (m : Member) :
    Evals K w (evalMember ctx static temporary m x) (evalMember (ctx.calling call' enter') static temporary m x') := by
  cases m with
  | field f => exact hx.bind fun _ _ _ hself => .atValue rfl (agrees_readMember h static hself _)
  | property p =>
    exact (hx.ownReceiver temporary).bind fun _ _ _ hself => .atValue rfl (agrees_readMember h static hself _)

theorem Agrees.call (hx : Evals K w x x') (hxs : EvalsAll K w xs xs') (static : Option Ty) (temporary : Bool)
    (m : Method) : Evals K w (evalCall ctx static temporary m x xs)
      (evalCall (ctx.calling call' enter') static temporary m x' xs') :=
  (hx.ownReceiver temporary).bind fun _ _ h₁ hself => (Agrees.locate rfl (hxs.later h₁)).bind fun _ _ h₂ hvs =>
    .atValue rfl (agrees_invoke h static m (K.passes_later h₂ hself) hvs)

theorem Agrees.static (hxs : EvalsAll K w xs xs') (m : Method) (hself : ∀ w, K.Passes w self) :
    Evals K w (evalStatic ctx kind m self xs) (evalStatic (ctx.calling call' enter') kind m self xs') :=
  (Agrees.locate rfl hxs).bind fun _ _ _ hvs => .atValue rfl (agrees_invoke h none m (hself _) hvs)

theorem Agrees.new (hxs : EvalsAll K w xs xs') (t : Ty) (ctor : Option Method) :
    Evals K w (evalNew ctx t ctor xs) (evalNew (ctx.calling call' enter') t ctor xs') := by
  refine (Agrees.atValue rfl (agrees_allocate t)).bind fun _ obj h₁ hobj => ?_
  cases ctor with
  | none => exact .value hobj
  | some c =>
    refine (Agrees.locate rfl (hxs.later h₁)).bind fun _ _ h₂ hvs => ?_
    have hobj := K.passes_later h₂ hobj
    exact (Agrees.at_ rfl (agrees_construct h c hobj hvs) fun _ h => h).bind fun _ _ h₃ _ =>
      .value (K.passes_later h₃ hobj)

theorem Agrees.storeMember (kind : Kind) (hx : Evals K w x x') (static : Option Ty) (hself : K.Passes w self)
    (m : Member) :
    Evals K w (storeMember ctx kind static self m x)
      (storeMember (ctx.calling call' enter') kind static self m x') :=
  hx.bind fun _ _ h₁ hv =>
    (Agrees.at_ rfl (agrees_writeMember h static (K.passes_later h₁ hself) m hv) fun _ h => h).bind fun _ _ h₂ _ =>
      .value (K.passes_later h₂ hv)

theorem Agrees.assignMember (hx : Evals K w x x') (hy : Evals K w y y') (static : Option Ty) (temporary : Bool)
    (m : Member) : Evals K w (assignMember ctx static temporary m x y)
      (assignMember (ctx.calling call' enter') static temporary m x' y') := by
  have hstore := (hx.ownReceiver temporary).bind fun _ _ h₁ hself =>
    Agrees.storeMember h .assign (hy.later h₁) static hself m
  cases static with
  | none => exact hstore
  | some t =>
    exact (Agrees.at_ (P := fun _ _ => True) rfl (.ite (fun _ => .fail rfl) fun _ => .result _) fun _ h => h).bind
      fun _ _ hw _ => hstore.later hw

/-- **Calling a delegate.** A lambda of a tree is the same in both stores; all else is left to the callers. -/
theorem Agrees.apply (hx : Evals K w x x') (hxs : EvalsAll K w xs xs') (result : Option Ty) :
    Evals K w (evalApply ctx result x xs) (evalApply (ctx.calling call' enter') result x' xs') := by
  refine hx.bind fun _ fn h₁ _ => (Agrees.locate rfl (hxs.later h₁)).bind fun w₂ values h₂ hvalues => ?_
  have hcall : Evals K w₂ (evalApply.callValue ctx fn values)
      (evalApply.callValue (ctx.calling call' enter') fn values) := by
    refine .ite (fun _ => .fail rfl) fun _ => .getStore_bind fun w₃ s t h₃ hst => ?_
    rw [(K.twins hst).dynamicType]
    have hvalues := hvalues.later h₃
    have hdelegates := K.delegate fn hst
    generalize s.delegate? fn = o at hdelegates
    generalize t.delegate? fn = o' at hdelegates
    cases hdelegates with
    | none => exact .fail rfl
    | @some d d' hdd =>
      have hother : Evals K w₃ (do
          let v ← ctx.call d values
          Exec.clone v : Eval Value) (do
          let v ← call' d' values
          Exec.clone v) :=
        (Agrees.liftValue (h.call hdd hvalues)).bind fun _ _ _ hv => .liftValue (.clone hv)
      rcases T.same hdd with rfl | ⟨c, c', rfl, rfl⟩
      · cases d' with
        | compiled c => exact hother
        | evaluated l name env maxDepth => exact h.enter (T.lambda.1 hdd) hvalues
        | host name routine => exact hother
      · exact hother
  exact (Agrees.locate rfl hcall).bind fun _ _ _ hv => .ite (fun _ => .value hv) fun _ => .plain rfl

end Calls

end Nodes

/-! ## Expressions -/

theorem passesNone (w : K.World) : ∀ v ∈ (#[] : Array Value), K.Passes w v := fun v hv => by simp at hv

mutual

theorem evals_eval (h : ctx.Agrees K T call' enter') (env : Environment) : ∀ {w : K.World} (e : Expr),
    T.Allows w e → Evals K w (eval ctx env e) (eval (ctx.calling call' enter') env e)
  | w, .constant v _, he => by
    rw [eval, eval]
    exact .liftValue (.clone (T.constant he))
  | w, .var v, _ => by
    rw [eval, eval]
    exact evals_var env v
  | w, .hostVar _ cell _, _ => by
    rw [eval, eval]
    refine .getStore_bind fun w' s t _ hst => ?_
    rw [(K.twins hst).load]
    exact .value ((K.holds hst).load (K.restricts w') cell)
  | w, .default t, _ => by
    rw [eval, eval]
    exact .liftValue (.zero _ t)
  | w, .member o m, he => by
    rw [eval, eval]
    exact .member h (evals_eval h env o (T.child he mem_cons_self)) _ _ m
  | w, .call o m args, he => by
    rw [eval, eval]
    exact .call h (evals_eval h env o (T.child he mem_cons_self))
      (.arguments (evals_evalEach h env _ args (fun c hc => T.child he (mem_cons_of_mem _ hc)) (passesNone w)) _ _)
      _ _ m
  | w, .callStatic m args, he => by
    rw [eval, eval]
    exact .static h (.arguments (evals_evalEach h env _ args (fun c hc => T.child he hc) (passesNone w)) _ _) m
      fun _ => passes_plain rfl
  | w, .new t c args, he => by
    rw [eval, eval]
    exact .new h (.arguments (evals_evalEach h env _ args (fun c hc => T.child he hc) (passesNone w)) _ _) t c
  | w, .init t c args members values, he => by
    rw [eval, eval]
    have hnew : T.Allows w (.new t c args) := T.child he mem_cons_self
    refine .init (.new h (.arguments (evals_evalEach h env _ args (fun c hc => T.child hnew hc) (passesNone w)) _ _)
      t c)
      fun w' obj hw hobj => evals_evalBindings h env t hobj members values fun c hc => ?_
    exact T.later hw (T.child he (mem_cons_of_mem _ hc))
  | w, .convert e (some m) _, he => by
    rw [eval, eval]
    have hoperand := evals_eval h env e (T.child he mem_cons_self)
    exact .static h (evalsAll_one (fun t => hoperand.owning _ t) _) m fun _ => passes_plain rfl
  | w, .convert e none t, he => by
    rw [eval, eval]
    exact (evals_eval h env e (T.child he mem_cons_self)).convert _ _
  | w, .lambda id name params body result type, he => by
    rw [eval, eval]
    exact evals_lambda env _ (T.child he mem_cons_self)
  | w, .cond c a b, he => by
    rw [eval, eval]
    exact (evals_eval h env c (T.child he (by simp [children]))).cond
      (evals_eval h env a (T.child he (by simp [children])))
      (evals_eval h env b (T.child he (by simp [children])))
  | w, .binary _ l r (some m) _, he => by
    rw [eval, eval]
    have hl := evals_eval h env l (T.child he (by simp [children]))
    have hr := evals_eval h env r (T.child he (by simp [children]))
    exact .static h (evalsAll_two (fun t => hl.owning _ t) (fun t => hr.owning _ t) _) m fun _ => passes_plain rfl
  | w, .binary op l r none _, he => by
    rw [eval, eval]
    exact (evals_eval h env l (T.child he (by simp [children]))).binary
      (evals_eval h env r (T.child he (by simp [children]))) op _ _
  | w, .unary op e, he => by
    rw [eval, eval]
    exact (evals_eval h env e (T.child he mem_cons_self)).unary op
  | w, .assign target value, he => by
    have htarget := T.child he mem_cons_self
    have hvalue := evals_eval h env value (T.child he (by simp [children]))
    cases target with
    | var v =>
      rw [eval, eval]
      exact (hvalue.owning _ _).assignVar env v
    | hostVar _ cell t =>
      rw [eval, eval]
      exact (hvalue.owning _ _).assignHost cell
    | member o m =>
      rw [eval, eval]
      exact .assignMember h (evals_eval h env o (T.child htarget mem_cons_self)) (hvalue.owning _ _) _ _ m
    | index a i =>
      rw [eval, eval]
      exact (evals_eval h env a (T.child htarget mem_cons_self)).assignIndex
        (evals_eval h env i (T.child htarget (by simp [children]))) (hvalue.owning _ _)
    | _ =>
      simp only [eval]
      exact .atValue rfl (.fail rfl)
  | w, .block _ vars es, he => by
    rw [eval, eval]
    have hnil : K.Passes w {} := passes_plain rfl
    exact evals_block (fun env => evals_evalAll h env hnil es fun c hc => T.child he hc) vars _
  | w, .apply f args r, he => by
    rw [eval, eval]
    exact .apply h (evals_eval h env f (T.child he mem_cons_self))
      (.arguments (evals_evalEach h env _ args (fun c hc => T.child he (mem_cons_of_mem _ hc)) (passesNone w)) _ _) r
  | w, .newArray t n, he => by
    rw [eval, eval]
    exact (evals_eval h env n (T.child he mem_cons_self)).newArray t
  | w, .arrayOf t items, he => by
    rw [eval, eval]
    exact .arrayOf (evals_evalItems h env t items (fun c hc => T.child he hc) (passesNone w)) t
  | w, .index a i, he => by
    rw [eval, eval]
    exact (evals_eval h env a (T.child he mem_cons_self)).index
      (evals_eval h env i (T.child he (by simp [children])))
  | w, .length a, he => by
    rw [eval, eval]
    exact (evals_eval h env a (T.child he mem_cons_self)).length
  | w, .absent, _ => by
    rw [eval, eval]
    exact .liftValue .corrupt

theorem evals_evalEach (h : ctx.Agrees K T call' enter') (env : Environment) (params : List (Option Ty)) :
    ∀ {w : K.World} (es : List Expr), (∀ c ∈ es, T.Allows w c) → ∀ {acc : Array Value},
      (∀ v ∈ acc, K.Passes w v) → EvalsItems K w (evalEach ctx env params es acc)
        (evalEach (ctx.calling call' enter') env params es acc)
  | w, [], _, acc, hacc => by
    rw [evalEach, evalEach]
    exact .pure fun _ hw v hv => K.passes_later hw (hacc v hv)
  | w, e :: es, hes, acc, hacc => by
    obtain ⟨he, hes⟩ := forall_mem_cons.1 hes
    rw [evalEach, evalEach]
    refine ((evals_eval h env e he).owning _ _).bind fun _ v hw hv => ?_
    exact evals_evalEach h env _ es (fun c hc => T.later hw (hes c hc))
      (Store.forall_mem_push (fun u hu => K.passes_later hw (hacc u hu)) hv)

theorem evals_evalItems (h : ctx.Agrees K T call' enter') (env : Environment) (elem : Ty) :
    ∀ {w : K.World} (es : List Expr), (∀ c ∈ es, T.Allows w c) → ∀ {acc : Array Value},
      (∀ v ∈ acc, K.Passes w v) → EvalsItems K w (evalItems ctx env elem es acc)
        (evalItems (ctx.calling call' enter') env elem es acc)
  | w, [], _, acc, hacc => by
    rw [evalItems, evalItems]
    exact .pure fun _ hw v hv => K.passes_later hw (hacc v hv)
  | w, e :: es, hes, acc, hacc => by
    obtain ⟨he, hes⟩ := forall_mem_cons.1 hes
    rw [evalItems, evalItems]
    refine ((evals_eval h env e he).owning _ _).bind fun _ v hw hv => ?_
    exact evals_evalItems h env elem es (fun c hc => T.later hw (hes c hc))
      (Store.forall_mem_push (fun u hu => K.passes_later hw (hacc u hu)) hv)

theorem evals_evalAll (h : ctx.Agrees K T call' enter') (env : Environment) :
    ∀ {w : K.World} {last : Value}, K.Passes w last → ∀ es : List Expr, (∀ c ∈ es, T.Allows w c) →
      Evals K w (evalAll ctx env last es) (evalAll (ctx.calling call' enter') env last es)
  | w, last, hlast, [], _ => by
    rw [evalAll, evalAll]
    exact .value hlast
  | w, last, _, e :: es, hes => by
    obtain ⟨he, hes⟩ := forall_mem_cons.1 hes
    rw [evalAll, evalAll]
    exact (evals_eval h env e he).bind fun _ v hw hv =>
      evals_evalAll h env hv es fun c hc => T.later hw (hes c hc)

theorem evals_evalBindings (h : ctx.Agrees K T call' enter') (env : Environment) (t : Ty) :
    ∀ {w : K.World} {obj : Value}, K.Passes w obj → ∀ (members : List Member) (es : List Expr),
      (∀ c ∈ es, T.Allows w c) → Agrees K w (fun _ _ => True) (evalBindings ctx env t obj members es)
        (evalBindings (ctx.calling call' enter') env t obj members es)
  | w, obj, _, members, [], _ => by
    rw [evalBindings, evalBindings]
    exact .pure fun _ _ => trivial
  | w, obj, hobj, members, e :: es, hes => by
    obtain ⟨he, hes⟩ := forall_mem_cons.1 hes
    cases members with
    | nil =>
      rw [evalBindings, evalBindings]
      exact .pure fun _ _ => trivial
    | cons m ms =>
      rw [evalBindings, evalBindings]
      refine (Agrees.storeMember h _ ((evals_eval h env e he).owning _ _) _ hobj m).bind fun _ _ hw _ => ?_
      exact evals_evalBindings h env t (K.passes_later hw hobj) ms es fun c hc => T.later hw (hes c hc)

end

/-! ## Lambdas -/

variable {H : Host} {call : Caller}

theorem Agrees.runBody (hx : Evals K w x x') (l : Lambda) : Evals K w (runBody ctx l x)
    (runBody (ctx.calling call' enter') l x') := by
  refine hx.bind fun _ v _ hv => ?_
  cases l.result with
  | none => exact .plain rfl
  | some t =>
    exact (Agrees.atValue rfl (agrees_convert hv _ _ false)).bind fun _ _ _ hu => .liftValue (.clone hu)

theorem evals_callLambda (hH : ∀ r ∈ H.routines, K.Routines H.types call call' r) (hcall : K.Callers call call')
    (maxDepth : Int) (n : Nat) {w : K.World} (caller : String) {c : Callee} {args : List Value}
    (hc : T.Allows w c.lambda.body) (hargs : K.PassesAll w args) :
    Evals K w (callLambda H call maxDepth n caller c args) (callLambda H call' maxDepth n caller c args) := by
  induction n generalizing w caller c args with
  | zero =>
    rw [callLambda, callLambda]
    exact .ite (fun _ => .fail rfl) fun _ => .liftValue (agrees_located (.fail rfl) _ _)
  | succ n ih =>
    rw [callLambda, callLambda]
    refine .ite (fun _ => .fail rfl) fun _ => ?_
    refine (Agrees.lift (agrees_declareAll _ _ _ hargs) fun _ h => h).bind fun _ env hw _ => ?_
    have hctx : Context.Agrees K T ⟨H, call, c.name, maxDepth, callLambda H call maxDepth n c.name⟩ call'
        (callLambda H call' maxDepth n c.name) := ⟨hH, hcall, fun hc' hargs' => ih c.name hc' hargs'⟩
    exact (evals_eval hctx env c.lambda.body (T.later hw hc)).runBody c.lambda

theorem agrees_callFromHost (hH : ∀ r ∈ H.routines, K.Routines H.types call call' r) (hcall : K.Callers call call')
    (maxDepth : Int) {c : Callee} (hc : T.Allows w c.lambda.body) (hargs : K.PassesAll w args) :
    K.Agrees w K.Passes (callFromHost H call maxDepth c args) (callFromHost H call' maxDepth c args) :=
  (Relates.cloneAll hargs).seq fun _ _ hw hvs =>
    (evals_callLambda hH hcall maxDepth _ _ (T.later hw hc) hvs 0).seq fun _ _ _ hv => .value hv

end Walk

end TreeMachine
