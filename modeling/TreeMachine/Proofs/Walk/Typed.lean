import TreeMachine.Proofs.Walk.TypedNodes
import TreeMachine.Walk.Program

/-!
# Evaluating checked trees

The value of an expression is of the static type of the expression (`Walk.yields_eval`), by induction on the
tree, for heaps in which the variables in scope have cells of their types. Calling a lambda follows by
induction on how deep calls may nest (`Walk.answers_callLambda`).
-/

open List

namespace TreeMachine.Walk

open Exec (Settles OfType)

variable {F : Delegate → Signature → Prop}

/-! ## Expressions -/

/-- What an expression takes from its surroundings: constants and cells of their types, and variables that
are declared around it. -/
structure Covers {U : Universe} (w : Heap U F) (env : Environment) (e : Expr) : Prop where
  constructs : e.All (Expr.Constructs U)
  holds : e.All w.Holds
  closed : ∃ scope, e.ClosedIn scope ∧ w.Binds scope env

namespace Covers

variable {U : Universe} {w w' : Heap U F} {env : Environment} {e : Expr}

theorem child (h : Covers w env e) (he : e.scopes = false) {c : Expr} (hc : c ∈ e.children) : Covers w env c := by
  obtain ⟨scope, hclosed, hbinds⟩ := h.closed
  exact ⟨h.constructs.child hc, h.holds.child hc, scope, hclosed.child he c hc, hbinds⟩

end Covers

section Expressions

variable {ctx : Context} {w : Heap ctx.types F} {env : Environment} {params : List (Option Ty)} {es : List Expr}

/-- Arguments from the left, behind those that are evaluated already. -/
theorem lasts_each (hctx : ctx.Typed w) (hfit : ctx.types.ArgsFit params es)
    (h : ∀ e ∈ es, Yields w (eval ctx env e) e.type) :
    ∀ {acc : Array Value} {before : List (Option Ty)}, w.HaveTypes acc.toList before →
      Lasts w (evalEach ctx env params es acc) fun w' vs => w'.HaveTypes vs.toList (before ++ params) := by
  induction hfit generalizing w with
  | nil =>
    intro acc before hacc w₁ hext₁ h₁
    rw [evalEach, append_nil]
    exact .pure h₁ (hacc.mono hext₁)
  | @cons p e params es hpe _ ih =>
    intro acc before hacc w₁ hext₁ h₁
    rw [evalEach]
    refine (((h e mem_cons_self).owning hctx hpe) w₁ hext₁ h₁).bind fun w₂ v hext₂ h₂ hv => ?_
    have hext₂ := hext₁.trans hext₂
    have hacc₂ : w₂.HaveTypes (acc.push v).toList (before ++ [p]) := by
      rw [Array.toList_push]
      exact rel_append (hacc.mono hext₂) (.cons hv .nil)
    have hrest := ih (hctx.mono hext₂) (fun e he => (h e (mem_cons_of_mem _ he)).later hext₂) hacc₂
      w₂ (.refl w₂) h₂
    rw [append_assoc] at hrest
    exact hrest

theorem yieldsAll_each (hctx : ctx.Typed w) (hfit : ctx.types.ArgsFit params es)
    (h : ∀ e ∈ es, Yields w (eval ctx env e) e.type) :
    YieldsAll w (evalArgs params.length es.length (evalEach ctx env params es #[])) params := by
  have hnone : w.HaveTypes (#[] : Array Value).toList [] := .nil
  exact yieldsAll_args hfit.length_eq (lasts_each hctx hfit h hnone)

theorem lasts_items (hctx : ctx.Typed w) {elem : Ty}
    (hfit : ∀ e ∈ es, ctx.types.convertsImplicitlyOf e.type (some elem) = true)
    (h : ∀ e ∈ es, Yields w (eval ctx env e) e.type) : ∀ {acc : Array Value}, (∀ v ∈ acc, w.HasType v (some elem)) →
      Lasts w (evalItems ctx env elem es acc) fun w' vs => ∀ v ∈ vs, w'.HasType v (some elem) := by
  induction es generalizing w with
  | nil =>
    intro acc hacc w₁ hext₁ h₁
    rw [evalItems]
    exact .pure h₁ fun v hv => (hacc v hv).mono hext₁
  | cons e es ih =>
    intro acc hacc w₁ hext₁ h₁
    rw [evalItems]
    refine (((h e mem_cons_self).owning hctx (hfit e mem_cons_self)) w₁ hext₁ h₁).bind
      fun w₂ v hext₂ h₂ hv => ?_
    have hext₂ := hext₁.trans hext₂
    refine ih (hctx.mono hext₂) (fun e he => hfit e (mem_cons_of_mem _ he))
      (fun e he => (h e (mem_cons_of_mem _ he)).later hext₂) (fun u hu => ?_) w₂ (.refl w₂) h₂
    rcases Array.mem_push.1 hu with hu | rfl
    · exact (hacc u hu).mono hext₂
    · exact hv

theorem yields_all (h : ∀ e ∈ es, Yields w (eval ctx env e) e.type) (hne : es ≠ []) (last : Value) :
    Yields w (evalAll ctx env last es) (Expr.lastType es) := by
  induction es generalizing w last with
  | nil => exact absurd rfl hne
  | cons e es ih =>
    intro w₁ hext₁ h₁
    rw [evalAll]
    refine (h e mem_cons_self w₁ hext₁ h₁).bind fun w₂ v hext₂ h₂ hv => ?_
    cases es with
    | nil =>
      rw [evalAll]
      exact .pure h₂ hv
    | cons e' es =>
      rw [Expr.lastType_cons_of_ne_nil (cons_ne_nil e' es)]
      have hext₂ := hext₁.trans hext₂
      exact ih (fun e he => (h e (mem_cons_of_mem _ he)).later hext₂) (cons_ne_nil e' es) v w₂
        (.refl w₂) h₂

theorem lasts_bindings (hctx : ctx.Typed w) {t : Ty} {obj : Value} {ms : List Member}
    (hfit : List.Forall₂ (fun (m : Member) (e : Expr) => m.isWritable = true ∧ ctx.types.DeclaresMember m ∧
      ctx.types.convertsImplicitlyOf e.type m.type = true) ms es)
    (hms : ∀ m ∈ ms, ctx.types.member? t m.name = some m) (h : ∀ e ∈ es, Yields w (eval ctx env e) e.type)
    (hobj : w.HasType obj (some t)) : Lasts w (evalBindings ctx env t obj ms es) fun _ _ => True := by
  induction hfit generalizing w with
  | nil =>
    intro w₁ _ h₁
    rw [evalBindings]
    exact .pure h₁ trivial
  | @cons m e ms es hme _ ih =>
    intro w₁ hext₁ h₁
    rw [evalBindings]
    have hvalue : Yields w (owning ctx e.kind e.type m.type (eval ctx env e)) m.type :=
      (h e mem_cons_self).owning hctx hme.2.2
    refine (Yields.storeMember hctx hvalue (hms m mem_cons_self) hme.1 hobj w₁ hext₁ h₁).bind
      fun w₂ _ hext₂ h₂ _ => ?_
    have hext₂ := hext₁.trans hext₂
    exact ih (hctx.mono hext₂) (fun m hm => hms m (mem_cons_of_mem _ hm))
      (fun e he => (h e (mem_cons_of_mem _ he)).later hext₂) (hobj.mono hext₂) w₂ (.refl w₂) h₂

theorem array_of_isArray {a : Expr} (h : Build.isArray a = true) : ∃ e, a.type = some (.array e) := by
  unfold Build.isArray at h
  cases ht : a.type with
  | none => rw [ht] at h; cases h
  | some t =>
    rw [ht] at h
    cases t with
    | array e => exact ⟨e, rfl⟩
    | _ => cases h

theorem yields_assign (hctx : ctx.Typed w) {target value : Expr} (htarget : target.Proper ctx.types)
    (hcovers : Covers w env target)
    (hparts : ∀ c ∈ target.children, Yields w (eval ctx env c) c.type) (ht : target.isTarget = true)
    (hconv : ctx.types.convertsImplicitlyOf value.type target.type = true)
    (hvalue : Yields w (eval ctx env value) value.type) :
    Yields w (eval ctx env (.assign target value)) target.type := by
  cases target with
  | var v =>
    rw [eval]
    obtain ⟨scope, hclosed, hbinds⟩ := hcovers.closed
    cases hclosed with
    | var hfind =>
      obtain ⟨loc, hloc, hcell⟩ := hbinds v hfind
      exact (hvalue.owning hctx hconv).assignVar hloc hcell
    | node h => cases h
  | hostVar name loc t =>
    rw [eval]
    exact (hvalue.owning hctx hconv).assignHost hcovers.holds.here
  | member o m =>
    rw [eval]
    obtain ⟨t, hot, hm⟩ := htarget
    have ho := hparts o mem_cons_self
    rw [hot] at ho ⊢
    exact Yields.assignMember hctx ho (hvalue.owning hctx hconv) hm ht _
  | index a i =>
    rw [eval]
    obtain ⟨e, hat⟩ := array_of_isArray htarget.1
    have ha := hparts a mem_cons_self
    have htype : (Expr.index a i).type = some e := by
      rw [Expr.type, hat]
      rfl
    rw [htype] at hconv ⊢
    have helem : a.type.bind Ty.elem? = some e := by rw [hat]; rfl
    rw [hat] at ha
    rw [helem]
    exact ha.assignIndex hctx (hparts i (by simp [Expr.children])) (hvalue.owning hctx hconv)
  | _ => cases ht

theorem yields_eval {e : Expr} (hctx : ctx.Typed w) (he : e.Checked ctx.types) (hcov : Covers w env e) :
    Yields w (eval ctx env e) e.type := by
  -- an initializer and an assignment evaluate the parts of a part
  suffices h : (∀ (w : Heap ctx.types F) (env : Environment), ctx.Typed w → Covers w env e →
      Yields w (eval ctx env e) e.type) ∧ ∀ c ∈ e.children, ∀ (w : Heap ctx.types F) (env : Environment),
      ctx.Typed w → Covers w env c → Yields w (eval ctx env c) c.type from h.1 w env hctx hcov
  clear hctx hcov
  induction he with
  | @node e hp hc ih =>
    refine ⟨fun w env hctx hcov => ?_, fun c hmem => (ih c hmem).1⟩
    have hU := hctx.host.types
    have hpart : e.scopes = false → ∀ c ∈ e.children, Yields w (eval ctx env c) c.type := fun hs c hmem =>
      (ih c hmem).1 w env hctx (hcov.child hs hmem)
    have hpart₂ : e.scopes = false → ∀ c ∈ e.children, c.scopes = false → ∀ c' ∈ c.children,
        Yields w (eval ctx env c') c'.type := fun hs c hmem hs' c' hmem' =>
      (ih c hmem).2 c' hmem' w env hctx ((hcov.child hs hmem).child hs' hmem')
    cases e with
    | constant v t =>
      rw [eval]
      have hv : w.HasType v t := hcov.holds.here
      exact fun w₁ hext₁ h₁ => .lift (Exec.settles_clone h₁ (hv.mono hext₁))
    | var v =>
      rw [eval]
      obtain ⟨scope, hclosed, hbinds⟩ := hcov.closed
      cases hclosed with
      | var hfind =>
        obtain ⟨loc, hloc, hcell⟩ := hbinds v hfind
        exact yields_var hloc hcell
      | node h => cases h
    | hostVar name loc t =>
      rw [eval]
      have hcell : w.HasCell loc t := hcov.holds.here
      exact fun w₁ hext₁ h₁ => .getStore_bind (.pure h₁ (h₁.load (hcell.mono hext₁)))
    | default t =>
      rw [eval]
      exact fun w₁ _ h₁ => .lift (Exec.settles_makes (Heap.makes_zero hU t h₁))
    | member o m =>
      rw [eval]
      obtain ⟨t, hot, hm⟩ := hp
      have ho := hpart rfl o mem_cons_self
      rw [hot] at ho ⊢
      exact Yields.member hctx ho hm _
    | call o m args =>
      rw [eval]
      obtain ⟨hs, hm, hfit, t, hot, howner⟩ := hp
      have ho := hpart rfl o mem_cons_self
      rw [hot] at ho ⊢
      have hargs := yieldsAll_each hctx hfit fun e he => hpart rfl e (mem_cons_of_mem _ he)
      exact Yields.call hctx ho hargs hm hs howner _
    | callStatic m args =>
      rw [eval]
      obtain ⟨hs, hm, hfit⟩ := hp
      exact YieldsAll.static hctx (yieldsAll_each hctx hfit (hpart rfl)) hm hs rfl
    | new t c args =>
      rw [eval]
      obtain ⟨hcan, hctor, hfit⟩ := hp
      obtain ⟨hstring, hnull⟩ := hcov.constructs.here
      refine YieldsAll.new hctx (yieldsAll_each hctx hfit (hpart rfl)) hcan hstring hnull fun c' hc' => ?_
      exact Universe.mem_of_constructor? (hctor.trans hc')
    | init t c args ms vs =>
      rw [eval]
      have hmem : Expr.new t c args ∈ (Expr.init t c args ms vs).children := mem_cons_self
      obtain ⟨hcan, hctor, hfit⟩ := (hc _ hmem).proper
      obtain ⟨hstring, hnull⟩ := (hcov.constructs.child hmem).here
      have hargs := yieldsAll_each hctx hfit (hpart₂ rfl _ hmem rfl)
      have hnew := YieldsAll.new hctx hargs hcan hstring hnull fun c' hc' =>
        Universe.mem_of_constructor? (hctor.trans hc')
      refine hnew.init fun w' obj hext hobj => ?_
      exact lasts_bindings (hctx.mono hext) hp hcov.constructs.here
        (fun e he => (hpart rfl e (mem_cons_of_mem _ he)).later hext) hobj
    | convert e m t =>
      cases m with
      | none =>
        rw [eval]
        exact (hpart rfl e mem_cons_self).convert hctx hp
      | some m =>
        rw [eval]
        obtain ⟨hs, hm, hresult, hfit⟩ := hp
        have he := hpart rfl e mem_cons_self
        rw [show (Expr.convert e (some m) t).type = m.result from hresult.symm]
        have hone : YieldsAll w (evalOne m.params fun p => owning ctx e.kind e.type p (eval ctx env e))
            m.params := by
          cases hps : m.params with
          | nil => rw [hps] at hfit; cases hfit
          | cons p ps =>
            rw [hps] at hfit
            cases hfit with
            | cons hpe hnil =>
              cases hnil
              exact yieldsAll_one (he.owning hctx hpe)
        exact YieldsAll.static hctx hone hm hs rfl
    | lambda id name params body result type =>
      rw [eval]
      obtain ⟨-, hconv, hsig⟩ := hp
      obtain ⟨scope, hclosed, hbinds⟩ := hcov.closed
      have hbody : body ∈ (Expr.lambda id name params body result type).children := mem_cons_self
      refine yields_lambda hctx ?_ hsig
      exact
        { checked := hc body hbody
          constructs := hcov.constructs.child hbody
          holds := hcov.holds.child hbody
          converts := hconv
          closed := by
            cases hclosed with
            | lambda hclosed => exact ⟨scope, hclosed, hbinds⟩
            | node h => cases h }
    | cond c a b =>
      rw [eval]
      have hc' := hpart rfl c (by simp [Expr.children])
      have hb := hpart rfl b (by simp [Expr.children])
      rw [hp.1] at hc'
      rw [← hp.2] at hb
      exact hc'.cond (hpart rfl a (by simp [Expr.children])) hb
    | binary op l r m t =>
      have hl := hpart rfl l (by simp [Expr.children])
      have hr := hpart rfl r (by simp [Expr.children])
      cases m with
      | none =>
        rw [eval]
        obtain ⟨a, b, hla, hrb, hop⟩ := hp
        rw [hla] at hl ⊢
        rw [hrb] at hr ⊢
        exact hl.binary hctx hr hop
      | some m =>
        rw [eval]
        obtain ⟨hs, hm, hresult, hfit⟩ := hp
        rw [show (Expr.binary op l r (some m) t).type = m.result from hresult.symm]
        have htwo : YieldsAll w (evalTwo m.params (fun p => owning ctx l.kind l.type p (eval ctx env l))
            fun q => owning ctx r.kind r.type q (eval ctx env r)) m.params := by
          generalize hps : m.params = ps at hfit
          cases hfit with
          | cons hpl hrest =>
            cases hrest with
            | cons hqr hnil =>
              cases hnil
              exact yieldsAll_two (hl.owning hctx hpl) (hr.owning hctx hqr)
        exact YieldsAll.static hctx htwo hm hs rfl
    | unary op e =>
      rw [eval]
      have he := hpart rfl e mem_cons_self
      cases op with
      | not =>
        have ht : e.type = some .bool := hp
        rw [show (Expr.unary .not e).type = some .bool from ht]
        rw [ht] at he
        exact he.unary hctx (fun _ => rfl) fun h => by cases h
      | negate =>
        obtain ⟨t, ht, hnum⟩ := hp
        rw [show (Expr.unary .negate e).type = some t from ht]
        rw [ht] at he
        exact he.unary hctx (fun h => by cases h) fun _ => hnum
    | assign target value =>
      have hmem : target ∈ (Expr.assign target value).children := mem_cons_self
      have hchildren : ∀ c ∈ target.children, Yields w (eval ctx env c) c.type := by
        cases hs : target.scopes with
        | false => exact hpart₂ rfl target hmem hs
        | true =>
          -- of what declares or is a variable, only variables are targets
          cases target with
          | var v => exact forall_mem_nil _
          | lambda | block => cases hp.1
          | _ => cases hs
      exact yields_assign hctx (hc target hmem).proper (hcov.child rfl hmem) hchildren hp.1 hp.2
        (hpart rfl value (by simp [Expr.children]))
    | block id vars es =>
      rw [eval]
      obtain ⟨scope, hclosed, hbinds⟩ := hcov.closed
      refine yields_block hctx hbinds fun w' hext env' hbinds' => ?_
      refine yields_all (fun e he => ?_) hp _
      refine (ih e he).1 w' env' (hctx.mono hext) ⟨hcov.constructs.child he,
        (hcov.holds.child he).imp fun _ h => h.mono hext, _, ?_, hbinds'⟩
      cases hclosed with
      | block hclosed => exact hclosed e he
      | node h => cases h
    | apply f args r =>
      rw [eval]
      obtain ⟨t, params, hft, hsig, hfit⟩ := hp
      have hf := hpart rfl f mem_cons_self
      rw [hft] at hf
      have hparams : delegateParams ctx.types f.type = params.map some := by
        simp [delegateParams, hft, hsig]
      rw [hparams]
      have hargs := yieldsAll_each hctx hfit fun e he => hpart rfl e (mem_cons_of_mem _ he)
      exact Yields.apply hctx hsig hf hargs
    | newArray t n =>
      rw [eval]
      exact (hpart rfl n mem_cons_self).newArray hctx t
    | arrayOf t items =>
      rw [eval]
      exact yields_arrayOf hctx (lasts_items hctx hp (hpart rfl) (by simp))
    | index a i =>
      rw [eval]
      obtain ⟨e, hat⟩ := array_of_isArray hp.1
      have ha := hpart rfl a mem_cons_self
      rw [hat] at ha
      rw [show (Expr.index a i).type = some e by rw [Expr.type, hat]; rfl]
      exact ha.index hctx (hpart rfl i (by simp [Expr.children]))
    | length a =>
      rw [eval]
      obtain ⟨e, hat⟩ := array_of_isArray hp
      have ha := hpart rfl a mem_cons_self
      rw [hat] at ha
      exact ha.length hctx
    | absent => exact hp.elim

end Expressions

/-! ## Lambdas -/

section Lambdas

variable {H : Host} {call : Caller} {w : Heap H.types F} {args : List Value}

theorem answers_runBody {ctx : Context} {w : Heap ctx.types F} (hctx : ctx.Typed w) {l : Lambda}
    {body : Eval Value} (hbody : Answers w body (OfType l.body.type))
    (hconv : l.result.isSome = true → ctx.types.convertsImplicitlyOf l.body.type l.result = true) :
    Answers w (runBody ctx l body) (OfType l.result) := by
  refine hbody.bind fun w₁ v _ h₁ hv => ?_
  cases hr : l.result with
  | none => exact .pure h₁ rfl
  | some t =>
    rw [hr] at hconv
    refine (Answers.at_ (settles_convert hctx.host.types h₁ hv (hconv rfl) false)).bind fun w₂ u _ h₂ hu => ?_
    exact .lift (Exec.settles_clone h₂ hu)

theorem answers_callLambda (maxDepth : Int) (n : Nat) :
    ∀ {w : Heap H.types F} {caller : String} {c : Callee} {args : List Value}, H.Typed w →
      Caller.Typed call w → w.Typed → w.Evaluates c.lambda c.env →
      w.HaveTypes args (c.lambda.params.map fun p => some p.type) →
      Answers w (callLambda H call maxDepth n caller c args) (OfType c.lambda.result) := by
  induction n with
  | zero =>
    intro w caller c args _ _ hw _ hargs
    have hlen : args.length = c.lambda.params.length := by
      rw [List.Forall₂.length_eq hargs, length_map]
    unfold callLambda
    rw [if_neg (not_not.2 hlen)]
    exact .lift (Answers.located (.fail hw rfl) caller .lambda)
  | succ n ih =>
    intro w caller c args hH hcall hw hl hargs
    have hlen : args.length = c.lambda.params.length := by
      rw [List.Forall₂.length_eq hargs, length_map]
    obtain ⟨scope, hclosed, hbinds⟩ := hl.closed
    unfold callLambda
    rw [if_neg (not_not.2 hlen)]
    let ctx : Context := ⟨H, call, c.name, maxDepth, callLambda H call maxDepth n c.name⟩
    have hctx : ctx.Typed w := ⟨hH, hcall, fun w' hext hw' c' args' hl' hargs' =>
      ih (hH.mono hext) (hcall.mono hext) hw' hl' hargs'⟩
    refine (Answers.lift (answers_declareAll hH.types c.lambda.params hw hargs hbinds)).bind
      fun w₁ env hext₁ h₁ henv => ?_
    refine answers_runBody (hctx.mono hext₁) ?_ hl.converts
    refine yields_eval (hctx.mono hext₁) hl.checked ?_ w₁ (.refl w₁) h₁
    exact ⟨hl.constructs, hl.holds.imp fun _ he => he.mono hext₁, _, hclosed, henv⟩

theorem answers_callFromHost (hH : H.Typed w) (hcall : Caller.Typed call w) (maxDepth : Int) {c : Callee}
    (hw : w.Typed) (hc : w.Evaluates c.lambda c.env)
    (hargs : w.HaveTypes args (c.lambda.params.map fun p => some p.type)) :
    Exec.Answers w (callFromHost H call maxDepth c args) (OfType c.lambda.result) := by
  refine Settles.bind (Exec.settles_cloneAll hw hargs) fun w₁ values hext₁ h₁ hvalues => ?_
  exact Settles.map (answers_callLambda maxDepth _ (hH.mono hext₁) (hcall.mono hext₁) h₁ (hc.mono hext₁)
    hvalues 0) fun _ _ _ _ hv => hv

end Lambdas

end TreeMachine.Walk
