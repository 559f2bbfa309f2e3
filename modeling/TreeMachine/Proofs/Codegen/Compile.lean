import TreeMachine.Proofs.Codegen.Branches
import TreeMachine.Proofs.Codegen.Functions

/-!
# Compiled trees are well formed

Putting the nodes together: the code of a checked expression leaves a value of its static type on the
stack, and declines where it fails (`yields_compile`), if nothing void is passed or stored in it. So every
function that the compilation of such a tree gives has a certificate (`Compiler.compile_certified`), and
is well formed.

Which faults there can be depends on the scopes that the parts of the tree are compiled in. `Scoping`
collects what has to hold of them; `scoping_none` is for statements about code that compiles.
-/

open List Option

namespace TreeMachine

open TreeMachine.Expr Universe

/-- Expressions whose parts are compiled in a scope of their own, or not as they stand. -/
def Expr.opensScope : Expr → Bool
  | .lambda .. | .block .. | .init .. => true
  | _ => false

namespace Codegen

variable {ctx : Context} {r : Bool} {strict : Prop} {P : Bindings → Prop} {kind : Kind} {s : CodegenState}

/-! ## Lists of expressions -/

section

variable {es : List Expr} (hes : ∀ e ∈ es, Yields r P e.type (compile ctx e))
include hes

theorem yieldsEach_compileArgs {params : List (Option Ty)} {plans : List Plan}
    (hfor : PlansFor ctx.types es params plans) (hvalues : ∀ e ∈ es, ∃ t, e.type = some t) :
    YieldsEach r P params (compileArgs ctx kind es plans) := by
  obtain ⟨hplans, rfl⟩ := hfor
  induction hplans with
  | nil =>
    intro strict s hs
    rw [compileArgs]
    exact .pure ⟨[], rfl, .refl _ hs.ok⟩
  | @cons e p es plans hep _ ih =>
    intro strict s hs
    obtain ⟨t, ht⟩ := hvalues e mem_cons_self
    have he := hes e mem_cons_self
    rw [ht] at he
    have hsource : p.source = some t := hep.2.trans ht
    rw [compileArgs]
    refine he.then hs fun hrun hs₁ => ?_
    refine .bind (runs_deliver (r := r) hep.1 hs₁.ok hrun.top hsource.symm hsource) fun ⟨a, hdeliver⟩ => ?_
    refine .imp (ih (fun e he => hes e (mem_cons_of_mem _ he)) (fun e he => hvalues e (mem_cons_of_mem _ he))
      (hdeliver.ready hs₁)) fun ⟨rest, hrest, hturned⟩ => ?_
    exact ⟨⟨p.target, a⟩ :: rest, by simp [hrest], (hrun.trans hdeliver).push hturned⟩

theorem yields_compileAll (hne : es ≠ []) : Yields r P (lastType es) (compileAll ctx es) := by
  induction es with
  | nil => exact absurd rfl hne
  | cons e es ih =>
    intro strict s hs
    have he := hes e mem_cons_self
    rw [compileAll]
    cases es with
    | nil => exact .bind (he hs) fun h => .pure h
    | cons e' es =>
      have ih := ih (fun x hx => hes x (mem_cons_of_mem _ hx)) (by simp)
      rw [lastType_cons_of_ne_nil (by simp)]
      -- the value of the first expression is discarded, if it has one
      cases ht : e.type with
      | none =>
        rw [ht] at he
        refine .bind (he hs) fun {_ s₁} ⟨es₁, hes₁, hrun⟩ => ?_
        obtain rfl : es₁ = [] := hes₁
        exact .imp (ih (hrun.ready hs)) fun ⟨es', hes', hrest⟩ => ⟨es', hes', hrun.trans hrest⟩
      | some t =>
        rw [ht] at he
        refine he.then hs fun hrun hs₁ => .bind (runs_plain (r := r) hs₁.ok hrun.top rfl rfl rfl) fun hpop => ?_
        have hboth := hrun.trans hpop
        exact .imp (ih (hboth.ready hs)) fun ⟨es', hes', hrest⟩ => ⟨es', hes', hboth.trans hrest⟩

theorem storesEach_compileBindings {t : Ty} {ms : List Member}
    (hms : ∀ m ∈ ms, SetterFits ctx.types t m ∧ ∃ t', m.type = some t') :
    StoresEach r P t (compileBindings ctx t ms es) := by
  induction es generalizing ms with
  | nil =>
    intro push below Q _ strict s base es hs _ _ hbelow
    rw [compileBindings]
    exact .pure ⟨es, hbelow, .refl _ hs.ok⟩
  | cons e es ih =>
    intro push below Q hpush strict s base below' hs hQ hb hbelow
    cases ms with
    | nil =>
      rw [compileBindings]
      exact .pure ⟨below', hbelow, .refl _ hs.ok⟩
    | cons m ms =>
      rw [compileBindings]
      obtain ⟨hm, t', ht'⟩ := hms m mem_cons_self
      refine .bind (hpush.run hs.ok hQ hb hbelow) fun {_ s₁} ⟨es', a, hes', hpushed⟩ => ?_
      have hb₁ : entries s₁ = (base ++ es') ++ [⟨some t, a⟩] := by
        rw [hpushed.entries base hb, append_assoc]
      refine .bind (runs_storeMemberCode hm ht' (hes e mem_cons_self) (hpushed.ready hs) hb₁) fun {_ s₂} hstored => ?_
      have hone : Turned r below' es' s s₂ := by simpa [kept] using hpushed.trans (hstored.frame es')
      refine .imp (ih (fun x hx => hes x (mem_cons_of_mem _ hx)) (fun x hx => hms x (mem_cons_of_mem _ hx))
        hpush (hone.ready hs) (hpush.kept hone hQ) (hone.entries base hb) hes') fun ⟨es'', hes'', hrest⟩ => ?_
      exact ⟨es'', hes'', hone.trans hrest⟩

end

/-! ## Members and methods -/

section

variable {U : Universe} (hU : U.Declared)
include hU

theorem setterFits {t : Ty} {m : Member} (hm : U.DeclaresMember m) : SetterFits U t m := by
  rintro p n rfl hn
  obtain ⟨c, hc⟩ := hm
  obtain ⟨c', hp⟩ := property_of_member? hc
  obtain ⟨hparams, hresult, hstatic, hslot⟩ := hU.setter_shape hp hn
  refine ⟨by rw [hparams]; rfl, hresult, hstatic, fun k hv hk => ?_⟩
  exact hU.resolve_signature hv hstatic (.inl hslot) hk

theorem keepsSignature {t : Ty} {m : Method} (hm : U.Declares m) (hstatic : m.isStatic = false)
    (ht : Build.hasMethodsOf U t m.owner = true) : KeepsSignature U t m :=
  fun _ hv hk => hU.resolve_signature hv hstatic (.inr ⟨hm, ht⟩) hk

end

theorem eq_bool_of_isLogical {U : Universe} {op : BinaryOp} {a b t : Ty} (hop : op.isLogical = true)
    (h : Build.operatorType? U op a b = some t) : t = .bool := by
  unfold Build.operatorType? at h
  rw [if_pos hop] at h
  split at h
  · exact (some.inj h).symm
  · cases h

/-! ## Expressions -/

section

variable (hU : ctx.types.Declared)
include hU

theorem yields_member {o : Expr} {m : Member} (hp : (member o m).Proper ctx.types)
    (ho : Yields r P o.type (compile ctx o)) : Yields r P m.type (compile ctx (.member o m)) := by
  obtain ⟨t, ht, hm⟩ := hp
  rw [ht] at ho
  cases m with
  | field f =>
    rw [compile]
    exact yields_fieldCode ho
  | property p =>
    obtain ⟨c, hprop⟩ := property_of_member? hm
    obtain ⟨hparams, hresult, hstatic, hslot⟩ := hU.getter_shape hprop
    have hget : Yields r P p.getter.result (compile ctx (.member o (.property p))) := by
      rw [compile, ht]
      refine yields_callOnCode hstatic (fun k hv hk => hU.resolve_signature hv hstatic (.inl hslot) hk) ho ?_
      exact fun _ strict s hs => .pure ⟨[], by rw [hparams]; rfl, .refl _ hs.ok⟩
    rw [hresult] at hget
    exact hget

theorem yields_new {t : Ty} {c : Option Method} {args : List Expr} (hp : (new t c args).Proper ctx.types)
    (hargs : ∀ e ∈ args, Yields r P e.type (compile ctx e)) (hvalues : ∀ e ∈ args, ∃ t, e.type = some t) :
    Yields r P (some t) (newCode ctx kind t c args (compileArgs ctx kind args)) := by
  obtain ⟨-, hc, -⟩ := hp
  have hmem : ∀ m, c = some m → m ∈ (ctx.types.decl t).constructors := fun m hm =>
    mem_of_constructor? (hc.trans hm)
  exact yields_newCode (fun m hm => hU.constructor_shape (hmem m hm)) fun _ hfor =>
    yieldsEach_compileArgs hargs hfor hvalues

theorem yields_init {t : Ty} {c : Option Method} {args vs : List Expr} {ms : List Member}
    (hp : (init t c args ms vs).Proper ctx.types) (hnew : (new t c args).Proper ctx.types)
    (hargs : ∀ e ∈ args, Yields r P e.type (compile ctx e)) (hvalues : ∀ e ∈ args, ∃ t, e.type = some t)
    (hvs : ∀ e ∈ vs, Yields r P e.type (compile ctx e)) (hvalues' : ∀ e ∈ vs, ∃ t, e.type = some t) :
    Yields r P (some t) (compile ctx (.init t c args ms vs)) := by
  rw [compile]
  refine yields_initCode (yields_new hU hnew hargs hvalues) (storesEach_compileBindings hvs fun m hm => ?_)
  obtain ⟨i, hi, rfl⟩ := getElem_of_mem hm
  obtain ⟨-, hm, hconv⟩ := List.Forall₂.get hp hi (hp.length_eq ▸ hi)
  obtain ⟨t', ht'⟩ := hvalues' _ (get_mem vs ⟨i, hp.length_eq ▸ hi⟩)
  rw [ht'] at hconv
  exact ⟨setterFits hU hm, target_of_converts hconv⟩

theorem yields_assign {target value : Expr} (hp : (assign target value).Proper ctx.types)
    (htarget : target.Proper ctx.types) (hparts : ∀ e ∈ target.children, Yields r P e.type (compile ctx e))
    (hvalue : Yields r P value.type (compile ctx value)) (htyped : ∃ t, value.type = some t)
    (hcopy : ∀ v env b, target = .var v → P env → env.lookup v.id = some b → b.place ≠ .free) :
    Yields r P target.type (compile ctx (.assign target value)) := by
  cases target with
  | var v =>
    rw [compile]
    exact yields_assignVarCode hvalue fun env b => hcopy v env b rfl
  | hostVar name cell t =>
    rw [compile]
    exact yields_assignHostCode hvalue
  | member o m =>
    obtain ⟨t, ht, hm⟩ := htarget
    obtain ⟨t', ht'⟩ : ∃ t', m.type = some t' := by
      obtain ⟨u, hu⟩ := htyped
      have hconv := hp.2
      rw [hu] at hconv
      exact target_of_converts hconv
    have ho := hparts o mem_cons_self
    rw [ht] at ho
    rw [compile, ht]
    show Yields r P m.type _
    rw [ht']
    exact yields_assignMemberCode (setterFits hU ⟨_, hm⟩) ht' ho hvalue
  | index a i =>
    obtain ⟨harray, hi⟩ := htarget
    obtain ⟨t, ht⟩ := isSome_iff_exists.1 harray
    obtain ⟨t', ht', -⟩ := bind_eq_some_iff.1 ht
    have ha := hparts a mem_cons_self
    have hi' := hparts i (by simp [children])
    rw [ht'] at ha
    rw [hi] at hi'
    rw [compile]
    show Yields r P (a.type.bind Ty.elem?) _
    rw [ht]
    exact yields_assignIndexCode ha hi' hvalue
  | _ => cases hp.1

end

theorem yields_binary {op : BinaryOp} {left right : Expr} {t : Ty}
    (hp : (binary op left right none t).Proper ctx.types) (hl : Yields r P left.type (compile ctx left))
    (hr : Yields r P right.type (compile ctx right)) :
    Yields r P (some t) (compile ctx (.binary op left right none t)) := by
  obtain ⟨a, b, ha, hb, hop⟩ := hp
  rw [ha] at hl
  rw [hb] at hr
  cases op with
  | andAlso | orElse =>
    obtain rfl := eq_bool_of_isLogical rfl hop
    rw [compile]
    exact yields_logicalCode hl hr
  | _ =>
    simp only [compile, ha, hb]
    exact yields_strictCode hl hr

/-- Scopes that the parts of a tree are compiled in: `S e P` says that `e` is compiled in scopes with the property
`P`. In such a scope a constant has a type, and nothing is assigned to a copy in a closure. -/
structure Scoping (ctx : Context) (S : Expr → (Bindings → Prop) → Prop) : Prop where
  constant : ∀ {v : Value} {P : Bindings → Prop} {env : Bindings}, S (.constant v none) P → ¬P env
  assign : ∀ {v : Var} {value : Expr} {P : Bindings → Prop} {env : Bindings} {b : Binding},
    S (.assign (.var v) value) P → P env → env.lookup v.id = some b → b.place ≠ .free
  part : ∀ {e c : Expr} {P : Bindings → Prop}, S e P → e.opensScope = false → c ∈ e.children → S c P
  init : ∀ {t : Ty} {k : Option Method} {args vs : List Expr} {ms : List Member} {e : Expr} {P : Bindings → Prop},
    S (.init t k args ms vs) P → e ∈ args ∨ e ∈ vs → S e P
  lambda : ∀ {l : Lambda} {P : Bindings → Prop}, S l.toExpr P →
    ∃ Q, S l.body Q ∧ ∀ env, P env → Opens ctx (some env) l Q
  block : ∀ {id : Nat} {vars : List Var} {es : List Expr} {P : Bindings → Prop}, S (.block id vars es) P →
    ∃ Q, (∀ e ∈ es, S e Q) ∧ ∀ env env', P env → Binds ctx id vars env env' → Q env'

theorem scoping_none (ctx : Context) : Scoping ctx fun _ P => ∀ env, ¬P env where
  constant h := h _
  assign h henv := absurd henv (h _)
  part h _ _ := h
  init h _ := h
  lambda h := ⟨fun _ => False, fun _ => id, fun env henv => absurd henv (h env)⟩
  block h := ⟨fun _ => False, fun _ _ _ => id, fun env _ henv => absurd henv (h env)⟩

/-- **The code of a checked expression** that passes and stores nothing void leaves a value of the static
type of the expression, and nothing if it is void; and it declines where it fails. -/
theorem yields_compile (hU : ctx.types.Declared) {S : Expr → (Bindings → Prop) → Prop} (hS : Scoping ctx S)
    {e : Expr} (he : e.Checked ctx.types) (hv : e.Valued) (hP : S e P) :
    Yields ctx.options.recordDepths P e.type (compile ctx e) := by
  -- an initializer and an assignment compile the parts of a part
  suffices h : (∀ {P}, S e P → Yields ctx.options.recordDepths P e.type (compile ctx e)) ∧
      ∀ c ∈ e.children, ∀ {P}, S c P → Yields ctx.options.recordDepths P c.type (compile ctx c) from h.1 hP
  clear hP
  induction he with
  | @node e hp hc ih =>
    have ih₁ : ∀ c ∈ e.children, ∀ {P}, S c P → Yields ctx.options.recordDepths P c.type (compile ctx c) :=
      fun c hmem => (ih c hmem (hv.child hmem)).1
    have ih₂ : ∀ c ∈ e.children, ∀ c' ∈ c.children, ∀ {P}, S c' P →
        Yields ctx.options.recordDepths P c'.type (compile ctx c') := fun c hmem => (ih c hmem (hv.child hmem)).2
    refine ⟨fun {P} hP => ?_, ih₁⟩
    have hpart : e.opensScope = false → ∀ c ∈ e.children,
        Yields ctx.options.recordDepths P c.type (compile ctx c) := fun he c hmem => ih₁ c hmem (hS.part hP he hmem)
    cases e with
    | constant v t =>
      rw [compile]
      refine yields_constantCode v fun env henv => ?_
      cases t with
      | none => exact absurd henv (hS.constant hP)
      | some t => exact ⟨t, rfl⟩
    | var v =>
      rw [compile]
      exact yields_variableCode v
    | hostVar name cell t =>
      rw [compile]
      exact yields_hostVarCode cell t
    | default t =>
      rw [compile]
      exact yields_defaultCode t
    | member o m => exact yields_member hU hp (hpart rfl o mem_cons_self)
    | call o m args =>
      obtain ⟨hstatic, hm, -, t, ht, hhas⟩ := hp
      have iho := hpart rfl o mem_cons_self
      rw [ht] at iho
      rw [compile, ht]
      exact yields_callOnCode hstatic (keepsSignature hU hm hstatic hhas) iho fun hfor =>
        yieldsEach_compileArgs (fun e he => hpart rfl e (mem_cons_of_mem _ he)) hfor hv.passed
    | callStatic m args =>
      rw [compile]
      exact yields_callStaticCode hp.1 fun hfor => yieldsEach_compileArgs (hpart rfl) hfor hv.passed
    | new t c args =>
      rw [compile]
      exact yields_new hU hp (hpart rfl) hv.passed
    | init t c args ms vs =>
      have hmem : new t c args ∈ (init t c args ms vs).children := mem_cons_self
      exact yields_init hU hp (hc _ hmem).proper (fun e he => ih₂ _ hmem e he (hS.init hP (.inl he)))
        (hv.child hmem).passed (fun e he => ih₁ e (mem_cons_of_mem _ he) (hS.init hP (.inr he))) hv.passed
    | convert e m t =>
      rw [compile.eq_def]
      cases m with
      | some m => exact fun _ _ _ => .decline
      | none => exact yields_convertCode (hpart rfl e mem_cons_self)
    | lambda id name params body result type =>
      obtain ⟨Q, hQ, hopens⟩ := hS.lambda (l := ⟨id, name, params, body, result, type⟩) hP
      rw [compile]
      refine yields_lambdaCode (ih₁ body mem_cons_self hQ) (fun hresult => ?_) hopens
      obtain ⟨t, rfl⟩ := isSome_iff_exists.1 hresult
      exact type_of_converts (hp.2.1 rfl)
    | cond c a b =>
      obtain ⟨hc, hab⟩ := hp
      have ihc := hpart rfl c mem_cons_self
      have iha := hpart rfl a (by simp [children])
      have ihb := hpart rfl b (by simp [children])
      rw [hc] at ihc
      rw [← hab] at ihb
      rw [compile]
      exact yields_condCode ihc iha ihb
    | binary op l r m t =>
      cases m with
      | some m =>
        rw [compile]
        exact fun _ _ _ => .decline
      | none => exact yields_binary hp (hpart rfl l mem_cons_self) (hpart rfl r (by simp [children]))
    | unary op e =>
      obtain ⟨t, ht⟩ : ∃ t, e.type = some t := by
        cases op with
        | not => exact ⟨_, hp⟩
        | negate =>
          obtain ⟨t, ht, -⟩ := hp
          exact ⟨t, ht⟩
      have ihe := hpart rfl e mem_cons_self
      rw [ht] at ihe
      rw [compile, type, ht]
      exact yields_unaryCode ihe
    | assign target value =>
      have hmem : target ∈ (assign target value).children := mem_cons_self
      have htarget : target.opensScope = false := by
        have hassign := hp.1
        cases target with
        | init | lambda | block => cases hassign
        | _ => rfl
      refine yields_assign hU hp (hc _ hmem).proper
        (fun e he => ih₂ _ hmem e he (hS.part (hS.part hP rfl hmem) htarget he))
        (hpart rfl value (by simp [children])) (hv.passed value mem_cons_self) ?_
      rintro v env b rfl henv hb
      exact hS.assign hP henv hb
    | block id vars es =>
      obtain ⟨Q, hQ, hbinds⟩ := hS.block hP
      rw [compile]
      exact yields_blockCode hbinds (yields_compileAll (fun e he => ih₁ e he (hQ e he)) hp)
    | apply f args result =>
      obtain ⟨t, params, ht, hsig, hargs⟩ := hp
      have ihf := hpart rfl f mem_cons_self
      rw [ht] at ihf
      rw [compile, ht, bind_some, hsig]
      exact yields_applyCode ihf fun hfor => yieldsEach_compileArgs
        (fun e he => hpart rfl e (mem_cons_of_mem _ he)) hfor (hargs.types (by simp))
    | newArray t n =>
      have ihn := hpart rfl n mem_cons_self
      rw [show n.type = _ from hp] at ihn
      rw [compile]
      exact yields_newArrayCode ihn
    | arrayOf t items =>
      rw [compile]
      exact yields_arrayOfCode fun hfor => yieldsEach_compileArgs (hpart rfl) hfor
        fun e he => type_of_converts (hp e he)
    | index a i =>
      obtain ⟨harray, hi⟩ := hp
      obtain ⟨t, ht⟩ := isSome_iff_exists.1 harray
      obtain ⟨t', ht', -⟩ := bind_eq_some_iff.1 ht
      have iha := hpart rfl a mem_cons_self
      have ihi := hpart rfl i (by simp [children])
      rw [ht'] at iha
      rw [hi] at ihi
      rw [compile, type, ht]
      exact yields_indexCode iha ihi
    | length a =>
      obtain ⟨t, ht⟩ := isSome_iff_exists.1 hp
      obtain ⟨t', ht', -⟩ := bind_eq_some_iff.1 ht
      have iha := hpart rfl a mem_cons_self
      rw [ht'] at iha
      rw [compile]
      exact yields_lengthCode iha
    | absent => exact hp.elim

theorem runs_root {root : Lambda} {shape : Shape} (hU : ctx.types.Declared) {S : Expr → (Bindings → Prop) → Prop}
    (hS : Scoping ctx S) (hroot : root.toExpr.Checked ctx.types) (hv : root.toExpr.Valued)
    (hlen : shape.params.length = root.params.length) (hP : S root.body P) (hopens : strict → Opens ctx none root P) :
    Runs strict (function ctx none root shape (compile ctx root.body))
      { function := newFunction ctx root.rootName } fun f s' =>
        Finished ctx.options.recordDepths f s'.functions ∧ f.captures = [] := by
  have hmem : root.body ∈ root.toExpr.children := mem_cons_self
  refine .imp (runs_function (yields_compile hU hS (hroot.child hmem) (hv.child hmem) hP) (fun hresult => ?_) rfl hlen
    hopens) fun ⟨_, hfrom, hfinished⟩ => ⟨hfinished (by simp [Image.Certified]) (by simp), ?_⟩
  · have hconv := hroot.proper.2.1 hresult
    obtain ⟨t, ht⟩ := isSome_iff_exists.1 hresult
    rw [ht] at hconv
    exact type_of_converts hconv
  · -- there is no scope to capture from
    refine eq_nil_iff_forall_not_mem.2 fun k hk => ?_
    obtain ⟨env, id, b, henv, -⟩ := (hfrom k hk).bound
    cases henv

end Codegen

/-! ## Artifacts -/

/-- The functions of an artifact that can be called: the one it starts with, and those that closures are
made from. -/
inductive Artifact.Reachable (a : Artifact) : Function → Prop
  | main : Reachable a a.main
  | closure {f g : Function} {j : Nat} : Reachable a f → .function j ∈ f.chunk.constants →
    a.image[j]? = some g → Reachable a g

theorem Artifact.Reachable.eq_or_mem {a : Artifact} {f : Function} (h : a.Reachable f) : f = a.main ∨ f ∈ a.image := by
  cases h with
  | main => exact .inl rfl
  | closure _ _ hg => exact .inr (Array.mem_of_getElem? hg)

namespace Compiler

variable {U : Universe} {options : Options} {root : Lambda} {shape : Shape} {a : Artifact}

theorem compile_certified (hU : U.Declared) (hroot : root.toExpr.Checked U)
    (hv : root.toExpr.Valued) (h : compile U options (some root) shape = .ok a) :
    Codegen.Finished options.recordDepths a.main a.image ∧ a.main.captures = [] := by
  unfold compile at h
  simp only at h
  split_ifs at h with hlen
  split at h
  · cases h
  · split at h
    · rename_i main s hmain
      cases h
      let ctx : Codegen.Context :=
        { types := U, captures := Captures.analyze U root options.inlineCaptures, options := options }
      have hrun := @Codegen.runs_root ctx False _ root shape hU _ (Codegen.scoping_none ctx) hroot hv (not_not.1 hlen)
        (fun _ => id) False.elim
      exact hrun.ok hmain
    · cases h

end Compiler

/-- Where the text of a tree ends, logging a failure changes nothing. -/
theorem Compiler.answer_of_prints {U : Universe} {s : Store} {options : Options} {l : Lambda} {shape : Shape}
    (h : l.toExpr.prints s = true) :
    answer U s options (some l) shape = (compile U options (some l) shape).mapError .error := by
  unfold answer
  cases compile U options (some l) shape with
  | ok a => rfl
  | error e =>
    simp only [h, if_true]
    rfl

end TreeMachine
