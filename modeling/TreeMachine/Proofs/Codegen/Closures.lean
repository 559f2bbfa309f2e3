import Mathlib
import TreeMachine.Proofs.Codegen.FreeVariables

/-!
# Closures find what they capture

The compiler walks the tree a second time, with an environment of its own. In a tree in which no node stands at two
places, it has there what the capture pass had in scope (`Covers`): at the place of a lambda, the variables that the
lambda captures belong to the function around it or are captured by that function in turn.

The steps of a compilation are described by triples: `Scoped env P x` says that `x`, compiled in the scope `env`, leaves
a scope with `P`, and that if it fails, this is not for want of a variable that a closure captures.
-/

open Std.Do

set_option mvcgen.warning false

open List

namespace TreeMachine

open Captures TreeMachine.Expr CompileError

variable {n i : Nat} {u : Ty} {es : List Expr} {cell : Loc} {v : Var} {vs : List Var} {enclosing : Option Bindings}
  {l : Lambda} {shape : Shape} {body : Codegen Unit}

/-- A closure captures a variable that is not in scope where it is made. -/
def CompileError.isUncapturable : CompileError → Bool
  | .unsupported _ (.notCapturable _) => true
  | _ => false

namespace Codegen

variable {ctx : Context} {env : Bindings} {kind : Kind} {α : Type}

/-! ## Steps -/

abbrev Scoped (env : Bindings) (P : Bindings → Prop) (x : Codegen α) : Prop :=
  ⦃fun s => ⌜s.function.env = env⌝⦄ x
  ⦃post⟨fun _ s => ⌜P s.function.env⌝, fun e _ => ⌜e.isUncapturable = false⌝⟩⦄

abbrev Keeps (env : Bindings) (x : Codegen α) : Prop := Scoped env (· = env) x

theorem Scoped.error {P : Bindings → Prop} {x : Codegen α} {s s' : CodegenState} {e : CompileError}
    (h : Scoped s.function.env P x) (hx : x s = .error e s') : e.isUncapturable = false := by
  simpa [wp, PredTrans.apply, EStateM.run, hx] using h s rfl

section Steps

variable {op : Opcode} {t : Option Ty} {scope : Int}

@[spec]
theorem keeps_fault {f : CodegenFault} : Keeps env (fault kind f : Codegen α) := by
  mvcgen [fault]

theorem checkEmit_error {operands : List Nat} {results : List StackEntry} {f : FunctionState} {e : CompileError}
    (h : checkEmit kind op operands results f = .error e) : e.isUncapturable = false := by
  unfold checkEmit at h
  repeat' split at h
  all_goals cases h
  all_goals rfl

@[spec]
theorem keeps_emit {operands : List Nat} {results : List StackEntry} : Keeps env (emit kind op operands results) := by
  intro s hs
  cases h : checkEmit kind op operands results s.function with
  | error e => simpa [wp, PredTrans.apply, EStateM.run, emit, h] using checkEmit_error h
  | ok pop => simpa [wp, PredTrans.apply, EStateM.run, emit, h, writeInstruction] using hs

@[spec]
theorem keeps_peek : Keeps env (peek kind n) := by
  mvcgen [peek]

@[spec]
theorem keeps_replaceTop {e : StackEntry} : Keeps env (replaceTop kind e) := by
  mvcgen [replaceTop, modifyFunction]
  simp_all +zetaDelta

@[spec]
theorem keeps_constant {k : Constant} : Keeps env (constant kind k) := by
  mvcgen [constant, decline]

@[spec]
theorem keeps_emitJump : Keeps env (emitJump kind op) := by
  mvcgen [emitJump, here]
  simp_all

@[spec]
theorem keeps_patchJump {o : Nat} : Keeps env (patchJump kind o) := by
  mvcgen [patchJump, here, modifyFunction, decline]

@[spec]
theorem keeps_slotError {e : SlotError} : Keeps env (slotError kind e : Codegen α) := by
  mvcgen [slotError, decline]

@[spec]
theorem keeps_openScope : Keeps env openScope := by
  mvcgen [openScope]

@[spec]
theorem keeps_allocate {name : String} {m : CaptureMode} : Keeps env (allocate kind t name m scope) := by
  mvcgen [allocate, modifyFunction]

@[spec]
theorem keeps_release : Keeps env (release kind scope) := by
  mvcgen [release, modifyFunction]

@[spec]
theorem keeps_withTemp {x : Nat → Codegen Unit} (hx : ∀ slot, Keeps env (x slot)) : Keeps env (withTemp kind u x) := by
  mvcgen [withTemp, hx]
  simp_all

@[spec]
theorem keeps_needType : Keeps env (needType kind t) := by
  mvcgen [needType]

@[spec]
theorem keeps_planned {β : Type} {reason : PlanError → Declined} {x : Except PlanError β}
    (h : ∀ e, (unsupported kind (reason e)).isUncapturable = false) :
    Keeps env (planned kind reason x) := by
  mvcgen [planned, decline]
  exact h _

@[spec]
theorem keeps_own : Keeps env (own ctx kind) := by
  mvcgen [own] <;> simp_all

@[spec]
theorem keeps_emitStep {step : ConversionStep} : Keeps env (emitStep ctx kind u step) := by
  mvcgen [emitStep] <;> simp_all

@[spec]
theorem keeps_emitSteps {steps : List ConversionStep} : Keeps env (emitSteps ctx kind u steps) := by
  induction steps with
  | nil => mvcgen [emitSteps]
  | cons step steps ih =>
    mvcgen [emitSteps, ih]
    simp_all

@[spec]
theorem keeps_deliver {plan : Plan} : Keeps env (deliver ctx kind plan) := by
  mvcgen [deliver, convert] <;> simp_all

@[spec]
theorem keeps_planEach {reason : Nat → PlanError → Declined} {ps : List (Option Ty)}
    {acc : List Plan} (h : ∀ i e, (unsupported kind (reason i e)).isUncapturable = false) :
    Keeps env (planEach ctx kind reason i ps es acc) := by
  induction ps generalizing i es acc with
  | nil => mvcgen [planEach]
  | cons p ps ih =>
    cases es with
    | nil => mvcgen [planEach]
    | cons e es => mvcgen [planEach, ih] <;> simp_all

@[spec]
theorem keeps_planArgs {ps : List (Option Ty)} : Keeps env (planArgs ctx kind ps es) := by
  mvcgen [planArgs, decline]
  simp_all [isUncapturable]

end Steps

/-! ## Nodes -/

section Nodes

variable {t elem : Ty} {source target : Option Ty} {m : Method} {args : List Expr} {x y z : Codegen Unit}
  {argsCode : List Plan → Codegen Unit} (hx : Keeps env x) (hy : Keeps env y) (hz : Keeps env z)
  (hargs : ∀ plans, Keeps env (argsCode plans))

@[spec]
theorem keeps_checkProblem {node : Nat} : Keeps env (checkProblem ctx kind node) := by
  mvcgen [checkProblem, decline]

@[spec]
theorem keeps_useHostCell : Keeps env (useHostCell cell) := by
  mvcgen [useHostCell]
  grind

@[spec]
theorem keeps_callCode {op : Opcode} : Keeps env (callCode kind op m) := by
  mvcgen [callCode]
  simp_all

@[spec]
theorem keeps_planAssign : Keeps env (planAssign ctx source target) := by
  mvcgen [planAssign]
  exact fun _ _ _ => rfl

@[spec]
theorem keeps_dupResult : Keeps env dupResult := by
  mvcgen [dupResult]
  simp_all

theorem keeps_constantCode {v : Value} : Keeps env (constantCode v source) := by
  mvcgen [constantCode] <;> simp_all

theorem keeps_variableCode : Keeps env (variableCode ctx v) := by
  mvcgen [variableCode, decline]
  simp_all

theorem keeps_hostVarCode : Keeps env (hostVarCode cell t) := by
  mvcgen [hostVarCode]
  simp_all

@[spec]
theorem keeps_defaultCode : Keeps env (defaultCode ctx kind t) := by
  mvcgen [defaultCode] <;> simp_all

include hx

@[spec]
theorem keeps_materialize : Keeps env (materialize kind t x) := by
  mvcgen [materialize, hx]
  simp_all

@[spec]
theorem keeps_valueCode {plan : Plan} : Keeps env (valueCode ctx plan x) := by
  mvcgen [valueCode, hx]

theorem keeps_fieldCode {f : Field} : Keeps env (fieldCode ctx f x) := by
  mvcgen [fieldCode, decline, hx] <;> simp_all

include hargs in
theorem keeps_callOnCode {path : Bool} : Keeps env (callOnCode ctx kind source path m args x argsCode) := by
  mvcgen [callOnCode, withReceiver, decline, hx, hargs] <;> simp_all

@[spec]
theorem keeps_storeMemberCode {m : Member} {keep : Bool} : Keeps env (storeMemberCode ctx kind t m source keep x) := by
  mvcgen [storeMemberCode, memberStore, decline, hx] <;> simp_all [isUncapturable]

theorem keeps_initCode {bindings : Codegen Unit → Codegen Unit}
    (hbindings : ∀ {push : Codegen Unit}, Keeps env push → Keeps env (bindings push)) :
    Keeps env (initCode ctx t x bindings) := by
  have hdup : Keeps env (bindings (emit .memberInit .dup [] [owned t, owned t])) := hbindings keeps_emit
  have hload : ∀ slot, Keeps env (bindings (emit .memberInit .loadLocal [slot] [aliased t])) :=
    fun _ => hbindings keeps_emit
  mvcgen [initCode, hx, hdup, hload]
  simp_all

theorem keeps_convertCode : Keeps env (convertCode ctx source target x) := by
  mvcgen [convertCode, convert, hx] <;> simp_all [isUncapturable]

theorem keeps_unaryCode {op : UnaryOp} : Keeps env (unaryCode op source x) := by
  mvcgen [unaryCode, hx]
  simp_all

theorem keeps_assignVarCode : Keeps env (assignVarCode ctx v source x) := by
  mvcgen [assignVarCode, decline, hx] <;> simp_all

theorem keeps_assignHostCode : Keeps env (assignHostCode ctx cell t source x) := by
  mvcgen [assignHostCode, hx] <;> simp_all

theorem keeps_newArrayCode : Keeps env (newArrayCode elem x) := by
  mvcgen [newArrayCode, hx]
  simp_all

theorem keeps_lengthCode : Keeps env (lengthCode x) := by
  mvcgen [lengthCode, hx]

include hargs in
theorem keeps_applyCode {signature : Option (List Ty × Option Ty)} :
    Keeps env (applyCode ctx signature args x argsCode) := by
  mvcgen [applyCode, hx, hargs]
  simp_all

include hy

theorem keeps_logicalCode {isAnd : Bool} : Keeps env (logicalCode isAnd x y) := by
  mvcgen [logicalCode, snapshot, restore, modifyFunction, hx, hy] <;> simp_all +zetaDelta

theorem keeps_strictCode {op : BinaryOp} {l r : Option Ty} :
    Keeps env (strictCode (operator? ctx.types op l r) t x y) := by
  unfold operator?
  split
  · mvcgen [strictCode, decline]
  · mvcgen [strictCode, hx, hy]

theorem keeps_assignMemberCode {path : Bool} {m : Member} :
    Keeps env (assignMemberCode ctx target path m source x y) := by
  mvcgen [assignMemberCode, decline, hx, hy]
  simp_all

theorem keeps_indexCode : Keeps env (indexCode target x y) := by
  mvcgen [indexCode, hx, hy]
  simp_all

include hz

theorem keeps_condCode {void : Bool} : Keeps env (condCode void x y z) := by
  mvcgen [condCode, snapshot, restore, join, modifyFunction, hx, hy, hz] <;> simp_all +zetaDelta

theorem keeps_assignIndexCode : Keeps env (assignIndexCode ctx target source x y z) := by
  mvcgen [assignIndexCode, hx, hy, hz] <;> simp_all

omit hx hy hz
include hargs

theorem keeps_callStaticCode : Keeps env (callStaticCode ctx m args argsCode) := by
  mvcgen [callStaticCode, hargs]
  simp_all

theorem keeps_newCode {ctor : Option Method} : Keeps env (newCode ctx kind t ctor args argsCode) := by
  mvcgen [newCode, planCtor, decline, hargs] <;> simp_all

theorem keeps_arrayOfCode : Keeps env (arrayOfCode ctx elem args argsCode) := by
  mvcgen [arrayOfCode, hargs] <;> simp_all [isUncapturable]

end Nodes

/-! ## Parts -/

theorem keeps_compileArgs (h : ∀ e ∈ es, Keeps env (compile ctx e)) (plans : List Plan) :
    Keeps env (compileArgs ctx kind es plans) := by
  induction es generalizing plans with
  | nil => mvcgen [compileArgs]
  | cons e es ih =>
    have he := h e mem_cons_self
    have ih := ih fun e he => h e (mem_cons_of_mem _ he)
    cases plans with
    | nil => mvcgen [compileArgs]
    | cons p ps =>
      mvcgen [compileArgs, he, ih]
      simp_all

theorem keeps_compileAll (h : ∀ e ∈ es, Keeps env (compile ctx e)) : Keeps env (compileAll ctx es) := by
  induction es with
  | nil => mvcgen [compileAll]
  | cons e es ih =>
    have he := h e mem_cons_self
    have ih := ih fun e he => h e (mem_cons_of_mem _ he)
    mvcgen [compileAll, he, ih]
    simp_all

theorem keeps_compileBindings {t : Ty} (h : ∀ e ∈ es, Keeps env (compile ctx e)) {push : Codegen Unit}
    (hpush : Keeps env push) (ms : List Member) : Keeps env (compileBindings ctx t ms es push) := by
  induction es generalizing ms with
  | nil => mvcgen [compileBindings]
  | cons e es ih =>
    have he := h e mem_cons_self
    have ih := ih fun e he => h e (mem_cons_of_mem _ he)
    cases ms with
    | nil => mvcgen [compileBindings]
    | cons m ms => mvcgen [compileBindings, he, hpush, ih] <;> simp_all

/-! ## Variables -/

@[spec]
theorem scoped_bindVariable {number : Option Nat} {slot : Nat} :
    Scoped env (· = (v.id, slotBinding ctx slot number) :: env) (bindVariable ctx kind v number slot) := by
  mvcgen [bindVariable, modifyFunction] <;> simp_all +zetaDelta [slotBinding, modeOf]

@[spec]
theorem scoped_declareAll {block : Nat} {scope : Int} :
    Scoped env (Binds ctx block vs env) (declareAll ctx block scope vs) := by
  induction vs generalizing env with
  | nil =>
    mvcgen [declareAll]
    simp_all [Binds.nil]
  | cons v vs ih =>
    mvcgen [declareAll, ih]
    grind [Binds.cons]

@[spec]
theorem scoped_prologue {lambda : Nat} {ts : List (Option Ty)} (hlen : ts.length = vs.length) :
    Scoped env (Binds ctx lambda vs env) (prologue ctx lambda i vs ts) := by
  induction vs generalizing env i ts with
  | nil =>
    mvcgen [prologue]
    simp_all [Binds.nil]
  | cons v vs ih =>
    obtain ⟨t, ts, rfl⟩ := exists_cons_of_length_eq_add_one hlen
    have ih : ∀ env i, Scoped env (Binds ctx lambda vs env) (prologue ctx lambda i vs ts) :=
      fun _ _ => ih (Nat.succ.inj hlen)
    mvcgen [prologue, ih] <;> grind [Binds.cons, isUncapturable]

@[spec]
theorem keeps_captureFrom (h : Enclosed ctx enclosing n) : Keeps env (captureFrom ctx enclosing n) := by
  obtain ⟨outer, b, rfl, hb, hn⟩ := h
  mvcgen [captureFrom, decline] <;> simp_all +zetaDelta

theorem enclosed_cons {m : Nat} {b : Binding} (hn : Enclosed ctx enclosing n)
    (hm : Enclosed ctx enclosing m) (hb : b.number = some n) (h : m = n ∨ Enclosed ctx (some env) m) :
    Enclosed ctx (some (((ctx.captures.vars.getD n default).var.id, b) :: env)) m := by
  obtain ⟨outer, c, rfl, hc, hcn⟩ := hn
  obtain ⟨outer', c', heq, hc', hcm⟩ := hm
  cases heq
  by_cases hid : (ctx.captures.vars.getD m default).var.id = (ctx.captures.vars.getD n default).var.id
  · rw [hid, hc] at hc'
    cases hc'
    exact ⟨_, b, rfl, by rw [hid, lookup_cons, beq_self_eq_true], by rw [hb, ← hcn, hcm]⟩
  · obtain ⟨env', c', heq, hc', hcm⟩ := h.resolve_left fun h => hid (h ▸ rfl)
    cases heq
    exact ⟨_, c', rfl, by rw [lookup_cons, beq_false_of_ne hid]; exact hc', hcm⟩

theorem scoped_bindCaptures (done : List Nat) {ns : List Nat}
    (hall : ∀ n ∈ done ++ ns, Enclosed ctx enclosing n) (hdone : ∀ n ∈ done, Enclosed ctx (some env) n) :
    Scoped env (fun env' => ∀ n ∈ done ++ ns, Enclosed ctx (some env') n) (bindCaptures ctx enclosing i ns) := by
  induction ns generalizing env i done with
  | nil =>
    mvcgen [bindCaptures]
    simp_all
  | cons n ns ih =>
    have hn := hall n (by simp)
    have ih : ∀ place i', Scoped (((ctx.captures.vars.getD n default).var.id, ⟨place, i, some n⟩) :: env)
        (fun env' => ∀ m ∈ done ++ n :: ns, Enclosed ctx (some env') m) (bindCaptures ctx enclosing i' ns) := by
      intro place i'
      rw [append_cons] at hall ⊢
      refine ih _ hall fun m hm => enclosed_cons hn (hall m (mem_append_left _ hm)) rfl ?_
      exact (mem_append.1 hm).symm.imp mem_singleton.1 (hdone m)
    mvcgen [bindCaptures, decline, modifyFunction, ih]
    subst env
    assumption

@[spec]
theorem keeps_allocateParams {lambda : Nat} {ts : List (Option Ty)} : Keeps env (allocateParams ctx lambda vs ts) := by
  induction vs generalizing ts with
  | nil => mvcgen [allocateParams]
  | cons v vs ih =>
    cases ts with
    | nil => mvcgen [allocateParams]
    | cons t ts =>
      mvcgen [allocateParams, ih]
      simp_all

@[spec]
theorem keeps_epilogue {body own result : Option Ty} : Keeps env (epilogue ctx body own result) := by
  mvcgen [epilogue, returnVoid, coerce, convert, decline] <;> simp_all [isUncapturable]

@[spec]
theorem scoped_function (hcaptures : ∀ n ∈ ctx.captures.of l.id, Enclosed ctx enclosing n)
    (hlen : shape.params.length = l.params.length)
    (hbody : ∀ {env env' : Bindings}, (∀ n ∈ ctx.captures.of l.id, Enclosed ctx (some env) n) →
      Binds ctx l.id l.params env env' → Keeps env' body) :
    Scoped env (fun _ => True) (function ctx enclosing l shape body) := by
  have hcaptures : ∀ i, Scoped env (fun env' => ∀ n ∈ ctx.captures.of l.id, Enclosed ctx (some env') n)
      (bindCaptures ctx enclosing i (ctx.captures.of l.id)) := fun i => scoped_bindCaptures [] hcaptures nofun
  mvcgen [function, hcaptures]
  · simp_all
  · rename_i hfound _ _ hbinds
    have hbody := hbody hfound hbinds
    mvcgen [hbody]

@[spec]
theorem keeps_nestedName {name : String} : Keeps env (nestedName name) := by
  mvcgen [nestedName]

@[spec]
theorem keeps_lambdaCode (hcaptures : ∀ n ∈ ctx.captures.of l.id, Enclosed ctx (some env) n)
    (hbody : ∀ {env env' : Bindings}, (∀ n ∈ ctx.captures.of l.id, Enclosed ctx (some env) n) →
      Binds ctx l.id l.params env env' → Keeps env' body) : Keeps env (lambdaCode ctx l body) := by
  have hlen : l.shape.params.length = l.params.length := by simp [Lambda.shape]
  mvcgen [lambdaCode, checkProblem, decline]
  · simp_all +zetaDelta
  · exact hbody ‹_› ‹_›
  · simp_all +zetaDelta

@[spec]
theorem keeps_blockCode {id : Nat} {vars : List Var}
    (hbody : ∀ {env' : Bindings}, Binds ctx id vars env env' → Keeps env' body) :
    Keeps env (blockCode ctx id vars body) := by
  mvcgen [blockCode, checkProblem, decline, modifyFunction]
  rename_i henv _ _ _ _ hopened _ _ hbinds
  have hbody := hbody (hopened.trans henv ▸ hbinds)
  mvcgen [hbody]

/-! ## Scopes -/

/-- Of the variables that the pass has in scope in lambda `l`, those that the lambda owns or captures are in `env`. -/
def Covers (ctx : Context) (visible : List (Nat × Nat)) (l : Nat) (env : Bindings) : Prop :=
  ∀ x i, visible.lookup x = some i → (ctx.captures.vars.getD i default).owner = l ∨ i ∈ ctx.captures.of l →
    ∃ b, env.lookup x = some b ∧ b.number = some i

theorem Covers.bind {visible : List (Nat × Nat)} {l : Nat} (h : Covers ctx visible l env) (id slot i : Nat) :
    Covers ctx ((id, i) :: visible) l ((id, slotBinding ctx slot (some i)) :: env) := by
  intro x j hj hmine
  rw [lookup_cons] at hj ⊢
  split at hj
  · cases hj
    exact ⟨_, rfl, rfl⟩
  · exact h x j hj hmine

section

open CapturePass

variable {root : Lambda} {p : CapturePass} {e c : Expr}
  (hctx : ctx.captures = analyze ctx.types root ctx.options.inlineCaptures) (hroot : root.toExpr.Unshared)
include hctx hroot

theorem Covers.binds {decl l : Nat} {env' : Bindings} (h : Covers ctx p.visible l env) (hp : p.Ok)
    (hends : Grows (p.declareAll decl vs) (pass ctx.types root)) (hbinds : Binds ctx decl vs env env') :
    Covers ctx (p.declareAll decl vs).visible l env' := by
  induction hbinds generalizing p with
  | nil => exact h
  | @cons v vs slot env env' _ ih =>
    have hdeclare := leads_declareAll p decl [v]
    have hrest := leads_declareAll (declare decl p v) decl vs
    have hnew := (getElem?_declare decl p v).2 (.inr ⟨rfl, rfl⟩)
    obtain ⟨y, hy, hxy⟩ := ((hrest.grows (hdeclare.ok hp)).trans hends).vars hnew
    have hnumber : ctx.captures.number? decl v = some p.out.vars.size := by
      have hy := number?_of_pass ctx.options.inlineCaptures hroot hy
      rw [hxy.decl, hxy.var] at hy
      rw [hctx]
      exact hy
    rw [hnumber] at ih
    exact ih (p := declare decl p v) (h.bind v.id slot _) (hdeclare.ok hp) hends

/-- **Closures find what they capture** in the scope in which they are made. -/
theorem enclosed_of_covers (h : Visited ctx.types root l.toExpr p)
    (hcovers : Covers ctx p.visible p.current env) : ∀ n ∈ ctx.captures.of l.id, Enclosed ctx (some env) n := by
  intro n hn
  rw [hctx, of_lambda hroot.nodes h, mem_eraseDups] at hn
  obtain ⟨x, hfree, hx⟩ := mem_filterMap.1 hn
  obtain ⟨hid, -, y, z, hy, hz, hyz⟩ := recorded_of_visible ctx.options.inlineCaptures h (mem_of_lookup hx)
  have hrecorded : (ctx.captures.vars.getD n default).owner = y.owner := by
    rw [hctx, (analyze_keeps ctx.options.inlineCaptures hz).2.1, hyz.owner]
  have hmine : (ctx.captures.vars.getD n default).owner = p.current ∨ n ∈ ctx.captures.of p.current := by
    refine or_iff_not_imp_left.2 fun howner => ?_
    -- the lambda around is between the owner and the mention too
    obtain ⟨k, hk, hcurrent⟩ := exists_between h.owned.lambdas (hrecorded ▸ howner)
    have hlink := link_eq_some hx hy hk
    rw [hcurrent] at hlink
    obtain ⟨hnodes, haround, -⟩ := h.nodes hroot.nodes
    have hof := of_visit (U := ctx.types) l.toExpr (apart_of_nodes hnodes haround) (List.Subset.refl _)
      (current_mem h.owned.lambdas) h.owned
    rw [hctx]
    refine h.ends.2.captured ?_
    rw [hof]
    exact mem_foldl_note (.inr (mem_filterMap.2 ⟨x, hfree, hlink⟩))
  obtain ⟨b, hb, hnumber⟩ := hcovers x n hx hmine
  rw [← hctx] at hid
  exact ⟨env, b, rfl, by rwa [hid], hnumber⟩

theorem covers_body {env' : Bindings} (h : Visited ctx.types root l.toExpr p)
    (hfound : ∀ n ∈ ctx.captures.of l.id, Enclosed ctx (some env) n) (hbinds : Binds ctx l.id l.params env env') :
    Covers ctx (p.enterLambda l.id l.params).visible l.id env' := by
  have hcaptured : Covers ctx p.visible l.id env := by
    intro x i hi hmine
    obtain ⟨hid, howner, -⟩ := recorded_of_visible ctx.options.inlineCaptures h (mem_of_lookup hi)
    rw [← hctx] at hid howner
    have hid : (ctx.captures.vars.getD i default).var.id = x := hid
    have hne : (ctx.captures.vars.getD i default).owner ≠ l.id := fun heq => by
      refine (h.nodes hroot.nodes).2.1 l.id ?_ (heq ▸ howner)
      rw [nodes_eq]
      exact mem_append_left _ mem_cons_self
    obtain ⟨env, b, heq, hb, hnumber⟩ := hfound i (hmine.resolve_left hne)
    cases heq
    exact ⟨b, hid ▸ hb, hnumber⟩
  exact Covers.binds (p := { p.next with lambdas := (l.id, p.next.pos) :: p.next.lambdas }) hctx hroot hcaptured
    (Owned.enter h.owned.ok h.owned.owner l.id).ok (Comes.ends (.inl h)).2 hbinds

end

/-! ## Trees -/

/-- An expression is compiled wherever it stands, and no closure in it misses a variable. -/
def Closes (ctx : Context) (root : Lambda) (e : Expr) : Prop :=
  ∀ {p : CapturePass} {env : Bindings}, CapturePass.Visited ctx.types root e p → Covers ctx p.visible p.current env →
    Keeps env (compile ctx e)

section

open CapturePass

variable {root : Lambda} {p : CapturePass} {e c : Expr}

theorem exists_visited (h : Visited ctx.types root e p) (hc : c ∈ e.children)
    (hcovers : Covers ctx (inside e p).visible (e.lambda?.getD p.current) env) :
    ∃ q, Visited ctx.types root c q ∧ Covers ctx q.visible q.current env := by
  obtain ⟨q, hq⟩ := exists_stop (U := ctx.types) hc p
  have hpass := (passes_stops hq).1
  refine ⟨q, .part h hq, ?_⟩
  rwa [hpass.visible, current, hpass.lambdas, ← current, current_inside]

theorem covers_inside (he : e.node? = none) (hcovers : Covers ctx p.visible p.current env) :
    Covers ctx (inside e p).visible (e.lambda?.getD p.current) env := by
  cases e with
  | lambda | block => cases he
  | _ => exact hcovers

theorem closes_compile (hctx : ctx.captures = analyze ctx.types root ctx.options.inlineCaptures)
    (hroot : root.toExpr.Unshared) (e : Expr) : Closes ctx root e ∧ ∀ c ∈ e.children, Closes ctx root c := by
  induction e using childInduction with
  | node e ih =>
    refine ⟨fun {p env} hp hcovers => ?_, fun c hc => (ih c hc).1⟩
    have hpart : e.node? = none → ∀ c ∈ e.children, Keeps env (compile ctx c) ∧
        (c.node? = none → ∀ c' ∈ c.children, Keeps env (compile ctx c')) := by
      intro he c hc
      obtain ⟨q, hq, hcovers⟩ := exists_visited hp hc (covers_inside he hcovers)
      refine ⟨(ih c hc).1 hq hcovers, fun hnode c' hc' => ?_⟩
      obtain ⟨q', hq', hcovers⟩ := exists_visited hq hc' (covers_inside hnode hcovers)
      exact (ih c hc).2 c' hc' hq' hcovers
    have hparts := fun he c hc => (hpart he c hc).1
    cases e with
    | constant v t =>
      rw [compile]
      exact keeps_constantCode
    | var v =>
      rw [compile]
      exact keeps_variableCode
    | hostVar name cell t =>
      rw [compile]
      exact keeps_hostVarCode
    | default t =>
      rw [compile]
      exact keeps_defaultCode
    | member o m =>
      have ho := hparts rfl o mem_cons_self
      cases m with
      | field f =>
        rw [compile]
        exact keeps_fieldCode ho
      | property m =>
        rw [compile]
        refine keeps_callOnCode ho fun _ => ?_
        mvcgen
    | call o m args =>
      rw [compile]
      exact keeps_callOnCode (hparts rfl o mem_cons_self)
        (keeps_compileArgs fun e he => hparts rfl e (mem_cons_of_mem _ he))
    | callStatic m args =>
      rw [compile]
      exact keeps_callStaticCode (keeps_compileArgs (hparts rfl))
    | new t c args =>
      rw [compile]
      exact keeps_newCode (keeps_compileArgs (hparts rfl))
    | init t c args members values =>
      rw [compile]
      refine keeps_initCode (keeps_newCode (keeps_compileArgs ?_)) fun hpush => ?_
      · exact (hpart rfl (.new t c args) mem_cons_self).2 rfl
      · exact keeps_compileBindings (fun e he => hparts rfl e (mem_cons_of_mem _ he)) hpush members
    | convert e m t =>
      cases m with
      | none =>
        rw [compile]
        exact keeps_convertCode (hparts rfl e mem_cons_self)
      | some m =>
        rw [compile]
        mvcgen [decline]
    | lambda id name params body result type =>
      rw [compile]
      let l : Lambda := ⟨id, name, params, body, result, type⟩
      refine keeps_lambdaCode (enclosed_of_covers (l := l) hctx hroot hp hcovers) fun hfound hbinds => ?_
      have hbody := covers_body (l := l) hctx hroot hp hfound hbinds
      obtain ⟨q, hq, hcovers⟩ := exists_visited hp (mem_singleton.2 rfl) hbody
      exact (ih body (mem_singleton.2 rfl)).1 hq hcovers
    | cond c a b =>
      rw [compile]
      exact keeps_condCode (hparts rfl c (by simp [children])) (hparts rfl a (by simp [children]))
        (hparts rfl b (by simp [children]))
    | binary op l r m t =>
      have hl := hparts rfl l (by simp [children])
      have hr := hparts rfl r (by simp [children])
      cases m with
      | some m =>
        rw [compile]
        mvcgen [decline]
      | none =>
        cases op with
        | andAlso | orElse =>
          rw [compile]
          exact keeps_logicalCode hl hr
        | _ =>
          rw [compile]
          · exact keeps_strictCode hl hr
          all_goals
            intros
            contradiction
    | unary op e =>
      rw [compile]
      exact keeps_unaryCode (hparts rfl e mem_cons_self)
    | assign target value =>
      have hvalue := hparts rfl value (by simp [children])
      have htarget := (hpart rfl target mem_cons_self).2
      cases target with
      | var v =>
        rw [compile]
        exact keeps_assignVarCode hvalue
      | hostVar name cell t =>
        rw [compile]
        exact keeps_assignHostCode hvalue
      | member o m =>
        rw [compile]
        exact keeps_assignMemberCode (htarget rfl o mem_cons_self) hvalue
      | index a i =>
        rw [compile]
        exact keeps_assignIndexCode (htarget rfl a (by simp [children])) (htarget rfl i (by simp [children]))
          hvalue
      | _ =>
        rw [compile]
        · mvcgen [decline]
        all_goals
          intros
          contradiction
    | block id vars es =>
      rw [compile]
      refine keeps_blockCode fun hbinds => keeps_compileAll fun e he => ?_
      have hends : Grows (p.next.declareAll id vars) _ := (Comes.ends (Or.inl hp)).2
      have hin := Covers.binds (p := p.next) hctx hroot hcovers ((passes_next p).ok hp.owned.ok) hends hbinds
      obtain ⟨q, hq, hcovers⟩ := exists_visited hp he hin
      exact (ih e he).1 hq hcovers
    | apply f args t =>
      rw [compile]
      exact keeps_applyCode (hparts rfl f mem_cons_self)
        (keeps_compileArgs fun e he => hparts rfl e (mem_cons_of_mem _ he))
    | newArray t n =>
      rw [compile]
      exact keeps_newArrayCode (hparts rfl n mem_cons_self)
    | arrayOf t items =>
      rw [compile]
      exact keeps_arrayOfCode (keeps_compileArgs (hparts rfl))
    | index a i =>
      rw [compile]
      exact keeps_indexCode (hparts rfl a (by simp [children])) (hparts rfl i (by simp [children]))
    | length a =>
      rw [compile]
      exact keeps_lengthCode (hparts rfl a mem_cons_self)
    | absent =>
      rw [compile]
      exact keeps_fault

theorem keeps_root (hctx : ctx.captures = analyze ctx.types root ctx.options.inlineCaptures)
    (hroot : root.toExpr.Unshared) (hlen : shape.params.length = root.params.length) :
    Scoped env (fun _ => True) (function ctx none root shape (compile ctx root.body)) := by
  have hnone : ctx.captures.of root.id = [] := by
    rw [hctx]
    exact of_root (apart_of_nodes hroot.nodes fun _ _ => not_mem_nil)
  refine scoped_function (by rw [hnone]; exact fun _ => nofun) hlen fun {_ env'} _ hbinds => ?_
  have hends : Grows (({} : CapturePass).enterLambda root.id root.params) (pass ctx.types root) :=
    (Comes.ends (.inr ⟨rfl, rfl⟩)).2
  have hcovers : Covers ctx (({} : CapturePass).enterLambda root.id root.params).visible root.id env' :=
    Covers.binds (p := { ({} : CapturePass).next with lambdas := [(root.id, 1)] }) hctx hroot (fun _ _ => nofun)
      (Owned.enter ok_empty (fun hb => absurd hb not_mem_nil) root.id).ok hends hbinds
  refine (closes_compile hctx hroot root.body).1 .body ?_
  rwa [show (({} : CapturePass).enterLambda root.id root.params).current = root.id from current_inside root.toExpr {}]

end

end Codegen

namespace Compiler

variable {U : Universe} {root : Lambda}

theorem isUncapturable_of_error (hroot : root.toExpr.Unshared) {options : Options} {e : CompileError}
    (h : compile U options (some root) shape = .error e) : e.isUncapturable = false := by
  unfold compile at h
  simp only at h
  split at h
  · cases h
    rfl
  · rename_i hlen
    split at h
    · cases h
      rfl
    · split at h
      · cases h
        rfl
      · split at h
        · cases h
        · rename_i hfun
          cases h
          exact (Codegen.keeps_root rfl hroot (not_not.1 hlen)).error hfun

end Compiler

namespace Captures

variable {root : Lambda}

/-- **Capture lists are the free variables.** In a tree in which no node stands at two places, a lambda captures what
its free variables mean where it stands, each once, in the order of evaluation; a variable that no lambda means is
captured in no way; and every closure finds what it captures where it is made. -/
theorem exactly_free (U : Universe) (options : Options) (hroot : root.toExpr.Unshared) :
    (∀ (owner : Nat) (scope : List Declaration) (l : Lambda), root.toExpr.At owner scope l.toExpr →
      ((analyze U root options.inlineCaptures).of l.id).map (declaration U root options.inlineCaptures) =
        (l.toExpr.meant scope).eraseDups) ∧
    (∀ (owner : Nat) (scope : List Declaration) (e : Expr), root.toExpr.At owner scope e →
      ∀ d ∈ e.declarations owner, ∃ i, (analyze U root options.inlineCaptures).number? d.decl d.var = some i ∧
        declaration U root options.inlineCaptures i = d ∧
        ((analyze U root options.inlineCaptures).mode i = .none ↔
          ∀ (owner' : Nat) (scope' : List Declaration) (l : Lambda), root.toExpr.At owner' scope' l.toExpr →
            d ∉ l.toExpr.meant scope')) ∧
    ∀ (shape : Shape) (kind : Kind) (name : String),
      Compiler.compile U options (some root) shape ≠ .error (.unsupported kind (.notCapturable name)) :=
  ⟨fun _ _ _ h => declarations_of _ hroot h, fun _ _ _ h _ hd => mode_eq_none_iff hroot h hd,
    fun _ _ _ h => nomatch Compiler.isUncapturable_of_error hroot h⟩

/-- The types of a function of a number and of one that returns such a function. -/
def addThreeTypes : Universe :=
  ((({} : Universe).delegate [.int32] (some .int32)).2.delegate [.int32] (some (.declared 0))).2

/-- A function that calls a closure which returns another one. -/
def addThree : Lambda :=
  let a : Var := ⟨1, "a", .int32⟩
  let b : Var := ⟨2, "b", .int32⟩
  let c : Var := ⟨3, "c", .int32⟩
  let one : Expr := .constant ⟨some .int32, .int 1⟩ (some .int32)
  let add (x y : Expr) : Expr := .binary .add x y none .int32
  let inner : Expr := .lambda 5 "" [c] (add (add (.var a) (.var b)) (.var c)) (some .int32) (.declared 0)
  let outer : Expr := .lambda 4 "" [b] inner (some (.declared 0)) (.declared 1)
  { id := 6
    name := "addThree"
    params := [a]
    body := .apply (.apply outer [one] (some (.declared 0))) [one] (some .int32)
    result := some .int32
    type := .declared 0 }

/-- The inner closure captures a variable of each function around it, and the outer one passes the first on. -/
theorem exactly_free_addThree :
    addThree.toExpr.Unshared ∧
    ((analyze addThreeTypes addThree true).of 5).map (declaration addThreeTypes addThree true) =
      [⟨6, 6, ⟨1, "a", .int32⟩⟩, ⟨4, 4, ⟨2, "b", .int32⟩⟩] ∧
    ((analyze addThreeTypes addThree true).of 4).map (declaration addThreeTypes addThree true) =
      [⟨6, 6, ⟨1, "a", .int32⟩⟩] := by
  have hnodes : addThree.toExpr.nodes = [6, 4, 5] := by
    simp [nodes_eq, addThree, Lambda.toExpr, node?, children]
  have hroot : addThree.toExpr.Unshared := .of_within 8 (by rw [hnodes]; decide) (by decide +kernel)
  have hhere : Expr.At addThree.toExpr 0 [] addThree.toExpr := .root
  have houter := (hhere.part (mem_singleton.2 rfl)).part mem_cons_self
  have houter := houter.part mem_cons_self
  exact ⟨hroot, (exactly_free addThreeTypes {} hroot).1 _ _ ⟨5, _, _, _, _, _⟩ (houter.part mem_cons_self),
    (exactly_free addThreeTypes {} hroot).1 _ _ ⟨4, _, _, _, _, _⟩ houter⟩

end Captures

end TreeMachine
