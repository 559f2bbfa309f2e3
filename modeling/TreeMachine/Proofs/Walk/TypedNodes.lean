import TreeMachine.Proofs.Walk.TypedValues

/-!
# Nodes of typed trees

What each kind of node does with the values of its parts: where they are of the types of the parts, its own
value is of the type of the node (`Walk.Yields`), in every heap that comes after. Methods are found where the
receiver is seen at the type that declares them (`Walk.answers_invoke`), and declared variables get cells of
their types (`Walk.answers_declareAll`).
-/

open List

namespace TreeMachine.Walk

open Exec Universe Heap

variable {values : List Value} {declared vars : List Var}


/-! ## Evaluations -/

section Evaluations

variable {U : Universe} {F : Delegate → Signature → Prop} {α β : Type} {w : Heap U F}

def Answers (w : Heap U F) (x : Eval α) (Q : Heap U F → α → Prop) : Prop :=
  ∀ n, Exec.Answers w (x n) fun w' r => Q w' r.1

namespace Answers

variable {x : Eval α} {Q Q' : Heap U F → α → Prop} {R : Heap U F → β → Prop} {ctx : Context} {kind : Kind}

protected theorem pure (hw : w.Typed) {a : α} (h : Q w a) : Answers w (pure a) Q :=
  fun _ => Settles.pure hw h

theorem mono (h : Answers w x Q) (hq : ∀ w' a, w'.Extends w → w'.Typed → Q w' a → Q' w' a) :
    Answers w x Q' := fun n => Settles.mono (h n) fun w' r hext hw hr => hq w' r.1 hext hw hr

protected theorem bind {f : α → Eval β} (hx : Answers w x Q)
    (hf : ∀ w' a, w'.Extends w → w'.Typed → Q w' a → Answers w' (f a) R) : Answers w (x >>= f) R :=
  fun n => Settles.bind (hx n) fun w' r hext hw hr => hf w' r.1 hext hw hr r.2

theorem lift {x : Exec α} (h : Exec.Answers w x Q) : Answers w (liftM x : Eval α) Q :=
  fun _ => Settles.bind h fun _ _ _ hw hq => .pure hw hq

theorem located {x : Exec α} (h : Exec.Answers w x Q) (function : String) (kind : Kind) :
    Exec.Answers w (Walk.located function kind x) Q := by
  refine Exec.Answers.mapError h fun e he => ?_
  split
  · exact he
  · show (e.isRuntime || _) = true
    rw [he, Bool.true_or]

theorem located_convert {x : Exec α} (h : Settles IsRuntimeOrCast w x Q) (function : String) :
    Exec.Answers w (Walk.located function .convert x) Q := by
  refine Settles.mapError h (fun e he => ?_) (fun p hp => ?_) fun he => ?_
  · rcases he with he | ⟨_, ⟨⟩, he⟩
    · show Error.isRuntime _ = true
      split
      · exact he
      · show (e.isRuntime || _) = true
        rw [show e.isRuntime = true from he, Bool.true_or]
    · show Error.isRuntime _ = true
      -- a cast fails without a node of its own
      have hnode : e.hasNode = false := by
        unfold Error.isCast at he
        split at he <;> first | rfl | cases he
      rw [hnode, if_neg Bool.false_ne_true]
      show (e.isRuntime || (true && e.isCast)) = true
      rw [he, Bool.and_self, Bool.or_true]
  · rcases hp with hp | ⟨_, ⟨⟩, -⟩
    exact hp
  · rcases he with he | ⟨_, ⟨⟩, -⟩
    exact he

theorem of_located {x : Exec α} (h : Exec.Answers w (Walk.located ctx.function kind x) Q) :
    Answers w (Walk.at_ ctx kind x) Q := by
  intro n
  rcases Settles.cases h with ⟨a, w', hres, hp, hw, hq⟩ | ⟨e, w', hres, hp, hw, he⟩
  · exact .of_ok (by rw [Walk.at_, hres]) rfl hp hw hq
  · exact .of_stops (by rw [Walk.at_, hres]) rfl hp hw he

theorem at_ {x : Exec α} (h : Exec.Answers w x Q) :
    Answers w (Walk.at_ ctx kind x) Q := of_located (located h ctx.function kind)

theorem locate (h : Answers w x Q) : Answers w (Walk.locate ctx kind x) Q :=
  fun n => located (h n) ctx.function kind

theorem getStore_bind {f : Store → Eval β} (h : Answers w (f w.store) R) :
    Answers w (getThe Store >>= f) R := fun n => h n

end Answers

def Lasts (w : Heap U F) (x : Eval α) (Q : Heap U F → α → Prop) : Prop :=
  ∀ w', w'.Extends w → w'.Typed → Answers w' x Q

theorem Lasts.later {w' : Heap U F} {x : Eval α} {Q : Heap U F → α → Prop} (h : Lasts w x Q)
    (hext : w'.Extends w) : Lasts w' x Q := fun w'' hext' hw => h w'' (hext.trans hext') hw

protected theorem Lasts.bind {x : Eval α} {f : α → Eval β} {Q : Heap U F → α → Prop} {R : Heap U F → β → Prop}
    (hx : Lasts w x Q) (hf : ∀ w' a, w'.Extends w → w'.Typed → Q w' a → Answers w' (f a) R) : Lasts w (x >>= f) R :=
  fun w₁ hext₁ h₁ => (hx w₁ hext₁ h₁).bind fun w₂ a hext₂ => hf w₂ a (hext₁.trans hext₂)

def Yields (w : Heap U F) (x : Eval Value) (t : Option Ty) : Prop := Lasts w x (OfType t)

def YieldsAll (w : Heap U F) (x : Eval (List Value)) (ts : List (Option Ty)) : Prop :=
  Lasts w x fun w' vs => w'.HaveTypes vs ts

end Evaluations

variable {F : Delegate → Signature → Prop}

/-- **What a function is evaluated under** gives results of the declared types. -/
structure Context.Typed (ctx : Context) (w : Heap ctx.types F) : Prop where
  host : ctx.host.Typed w
  call : Caller.Typed ctx.call w
  enter : ∀ w' : Heap ctx.types F, w'.Extends w → w'.Typed → ∀ (c : Callee) (args : List Value),
    w'.Evaluates c.lambda c.env → w'.HaveTypes args (c.lambda.params.map fun p => some p.type) →
      Answers w' (ctx.enter c args) (OfType c.lambda.result)

theorem Context.Typed.mono {ctx : Context} {w w' : Heap ctx.types F} (h : ctx.Typed w)
    (hext : w'.Extends w) : ctx.Typed w' where
  host := h.host.mono hext
  call := h.call.mono hext
  enter w'' hext' := h.enter w'' (hext.trans hext')

/-! ## Members and calls -/

section Members

variable {ctx : Context} {w : Heap ctx.types F} {self v : Value} {args : List Value} {t : Ty} {m : Method}
  {U : Universe}

theorem answers_run (hctx : ctx.Typed w) (hw : w.Typed) {impl : Method}
    (hi : ctx.types.isInterface impl.owner = false) (hm : ctx.types.Declares impl)
    (hsame : impl.SameSignature m) (hself : w.Receives impl self) (hargs : w.HaveTypes args m.params) :
    Exec.Answers w (invoke.run ctx m args impl self) (OfType m.result) := by
  rw [← hsame.params] at hargs
  refine Settles.bind (Exec.Answers.mapError (hctx.host.invoke hctx.call hw hi hm hself hargs)
    fun _ he => he) fun w' v _ hw' hv => ?_
  cases hr : m.result with
  | none => exact .pure hw' rfl
  | some u => exact settles_clone hw' (hv u (hsame.result.trans hr))

theorem answers_invoke (hctx : ctx.Typed w) (hw : w.Typed) (hm : ctx.types.Declares m) (hs : m.isStatic = false)
    (hself : w.HasType self (some t)) (ho : ∀ d, ctx.types.Is d t → d ≠ .null → ctx.types.Is d m.owner)
    (hargs : w.HaveTypes args m.params) : Exec.Answers w (invoke ctx (some t) self m args) (OfType m.result) := by
  have hU := hctx.host.types
  unfold invoke
  rw [hs, if_neg Bool.false_ne_true]
  split
  · exact .fail hw rfl
  rename_i hnil
  have hn : self.datum ≠ .null := by simpa [Value.isNil] using hnil
  obtain ⟨d, hd, his, hdn, hi, hval⟩ := hself.receiver hU hn
  obtain ⟨impl, hres, himpl⟩ := hU.declared.resolve_of_is hi hm hs (ho d his hdn)
  -- a value type is its own dynamic type
  have himplementation : Exec.Answers w (implementation ctx (some t) self m) fun w' x => w' = w ∧ x = impl := by
    refine .get_bind ?_
    have hdyn : (if (some t).any ctx.types.isValue then some t else w.store.dynamicType self) = some d := by
      cases ht : ctx.types.isValue t with
      | true => simp [ht, hval ht]
      | false => simp [ht, hd]
    show Exec.Answers w (getSome (ctx.types.resolveOf (if (some t).any ctx.types.isValue then some t
      else w.store.dynamicType self) m) >>= _) _
    rw [hdyn]
    show Exec.Answers w (getSome (some (ctx.types.resolve d m)) >>= _) _
    rw [hres]
    exact .pure hw ⟨rfl, rfl⟩
  refine Settles.bind himplementation ?_
  rintro w' _ - hw' ⟨rfl, rfl⟩
  have hreceives := receives_of_implementation hU hw' hself hn hd himpl
  split
  · rename_i hv
    rw [if_pos hv] at hreceives
    exact .get_bind (answers_run hctx hw' himpl.concrete himpl.declared himpl.same hreceives hargs)
  · rename_i hv
    rw [if_neg hv] at hreceives
    exact answers_run hctx hw' himpl.concrete himpl.declared himpl.same hreceives hargs

theorem answers_invokeStatic (hctx : ctx.Typed w) (hw : w.Typed) (hm : ctx.types.Declares m)
    (hs : m.isStatic = true) (hself : self.datum = .null) (hargs : w.HaveTypes args m.params) :
    Exec.Answers w (invoke ctx none self m args) (OfType m.result) := by
  have hi : ctx.types.isInterface m.owner = false := by
    cases hi : ctx.types.isInterface m.owner with
    | false => rfl
    | true =>
      rw [(hctx.host.types.interfaces _ hi).2 m hm] at hs
      cases hs
  have hproper : w.Proper self := by
    unfold Heap.Proper
    rw [hself]
    trivial
  unfold invoke
  rw [hs, if_pos rfl]
  refine answers_run hctx hw hi hm (.refl m) ⟨hproper, fun h => ?_⟩ hargs
  rw [hs] at h
  cases h

theorem answers_fieldsOf (hctx : ctx.Typed w) (hw : w.Typed) {f : Field} (hself : w.HasType self (some t))
    (hf : (ctx.types.layout t)[f.index]? = some f) :
    Exec.Answers w (fieldsOf self f) fun w' fields => w' = w ∧ ∃ d x, w.Stores self d ∧
      (ctx.types.layout d)[f.index]? = some f ∧ fields[f.index]? = some x ∧ w.HasType x (some f.type) := by
  unfold fieldsOf
  split
  · exact .fail hw rfl
  rename_i hnil
  have hn : self.datum ≠ .null := by simpa [Value.isNil] using hnil
  obtain ⟨d, hd, hfd⟩ := hself.stores hctx.host.types hn hf
  obtain ⟨x, hx, hty⟩ := hd.field hw hfd
  refine .get_bind ?_
  dsimp only
  rw [if_pos (Array.getElem?_eq_some_iff.1 hx).1]
  exact .pure hw ⟨rfl, d, x, hd, hfd, hx, hty⟩

/-- A member of a type is a field in its layout, or a property whose accessors it has. -/
theorem member_cases (hU : U.Regular) {m : Member} {name : String} (h : U.member? t name = some m) :
    (∃ f, m = .field f ∧ (U.layout t)[f.index]? = some f) ∨ ∃ p, m = .property p ∧
      ∃ c ∈ U.chain t, p ∈ (U.decl c).properties ∧ (U.Declares p.getter ∧ p.getter.owner = c) ∧
        ∀ m, p.setter = some m → U.Declares m ∧ m.owner = c := by
  unfold member? at h
  split at h
  · rename_i f hf
    cases h
    exact .inl ⟨f, rfl, hU.declared.layout_of_field? hf⟩
  · obtain ⟨p, hp, rfl⟩ := Option.map_eq_some_iff.1 h
    exact .inr ⟨p, rfl, hU.accessors hp⟩

theorem is_of_chain (hU : U.Regular) {c d : Ty} (hc : c ∈ U.chain t) (h : U.Is d t) (hd : d ≠ .null) : U.Is d c := by
  rcases mem_cons.1 hc with rfl | hc
  · exact h
  · refine h.hasMethodsOf hU.closed hd ?_
    simp [Build.hasMethodsOf, isSubclass, hc]

theorem answers_readMember (hctx : ctx.Typed w) (hw : w.Typed) {m : Member}
    (hm : ctx.types.member? t m.name = some m) (hself : w.HasType self (some t)) :
    Exec.Answers w (readMember ctx (some t) self m) (OfType m.type) := by
  have hU := hctx.host.types
  rcases member_cases hU hm with ⟨f, rfl, hf⟩ | ⟨p, rfl, c, hc, hp, ⟨hget, ho⟩, -⟩
  · refine Settles.bind (answers_fieldsOf hctx hw hself hf) ?_
    rintro w' fields - hw' ⟨rfl, d, x, -, -, hx, hty⟩
    refine .pure hw' ?_
    rw [Array.getD_eq_getD_getElem?, hx]
    exact hty
  · obtain ⟨hparams, hresult, hs, -⟩ := hU.declared.getter_shape hp
    show Exec.Answers w (invoke ctx (some t) self p.getter []) (OfType p.type)
    rw [← hresult]
    refine answers_invoke hctx hw hget hs hself (fun d hd hn => ?_) (by rw [hparams]; exact .nil)
    rw [ho]
    exact is_of_chain hU hc hd hn

theorem answers_writeMember (hctx : ctx.Typed w) (hw : w.Typed) {m : Member}
    (hm : ctx.types.member? t m.name = some m) (hwritable : m.isWritable = true)
    (hself : w.HasType self (some t)) (hv : w.HasType v m.type) :
    Exec.Answers w (writeMember ctx (some t) self m v) fun _ _ => True := by
  have hU := hctx.host.types
  rcases member_cases hU hm with ⟨f, rfl, hf⟩ | ⟨p, rfl, c, hc, hp, -, hset⟩
  · refine Settles.bind (answers_fieldsOf hctx hw hself hf) ?_
    rintro w' fields - hw' ⟨rfl, d, x, hd, hfd, -, -⟩
    exact settles_modify (hd.setField hw' hfd hv)
  · obtain ⟨setter, hsetter⟩ := Option.isSome_iff_exists.1 hwritable
    obtain ⟨hdecl, ho⟩ := hset setter hsetter
    obtain ⟨hparams, -, hs, -⟩ := hU.declared.setter_shape hp hsetter
    unfold writeMember
    simp only [hsetter]
    have hcall : Exec.Answers w (invoke ctx (some t) self setter [v]) (OfType setter.result) := by
      refine answers_invoke hctx hw hdecl hs hself (fun d hd hn => ?_) (by rw [hparams]; exact .cons hv .nil)
      rw [ho]
      exact is_of_chain hU hc hd hn
    exact Settles.bind hcall fun w' _ _ hw' _ => .pure hw' trivial

theorem aggregate_or_class (hU : U.Declared) (h : Build.cannotConstruct U t = false) :
    U.storage t = .aggregate ∨ (U.storage t = .reference ∧ (U.decl t).form = .classType) := by
  simp only [Build.cannotConstruct, Bool.or_eq_false_iff] at h
  obtain ⟨⟨⟨hi, hs⟩, harray⟩, hdelegate⟩ := h
  unfold isInterface at hi
  unfold isScalar at hs
  unfold storage at hi hs ⊢
  cases hform : (U.decl t).form with
  | struct => exact .inl rfl
  | classType => exact .inr ⟨rfl, rfl⟩
  | array =>
    rcases hU.traced_or t with ⟨-, ht⟩ | hd
    · have hshape := ht.shape
      simp only [TypeDecl.Shaped, hform] at hshape
      obtain ⟨e, rfl⟩ := hshape
      cases harray
    · rw [hd] at hform
      cases hform
  | delegate ps r => simp [isDelegate, signature?, hform] at hdelegate
  | _ => simp [hform] at hi hs

theorem answers_allocate (hctx : ctx.Typed w) (hw : w.Typed) (h : Build.cannotConstruct ctx.types t = false)
    (hstring : t ≠ .string) (hnull : t ≠ .null) :
    Exec.Answers w (allocate ctx t) fun w' v => w'.HasType v (some t) ∧ v.datum ≠ .null := by
  have hU := hctx.host.types
  unfold allocate
  simp only [hstring, hnull, decide_false, Bool.or_self, Bool.false_eq_true, if_false]
  rcases aggregate_or_class hU.declared h with hs | ⟨hs, hform⟩
  · rw [hs]
    have ha : ctx.types.isAggregate t = true := decide_eq_true hs
    refine (settles_makes (makes_newAggregate hU ha hw)).mono fun w' v _ _ hv => ?_
    exact ⟨hv, (Heap.HasType.type_of_value hv (isValue_of_isAggregate ha)).2.1⟩
  · rw [hs]
    obtain ⟨w', hstore, hext, hw', hv⟩ := makes_newObject hU hform hnull hw
    exact .step hstore hext hw' ⟨hv, nofun⟩

theorem answers_construct (hctx : ctx.Typed w) (hw : w.Typed) {c : Method}
    (hi : ctx.types.isInterface t = false) (hc : c ∈ (ctx.types.decl t).constructors)
    (hself : w.HasType self (some t)) (hn : self.datum ≠ .null) (hargs : w.HaveTypes args c.params) :
    Exec.Answers w (construct ctx self c args) fun _ _ => True :=
  Settles.bind (Exec.Answers.mapError (hctx.host.construct hctx.call hw hi hc hself hn hargs) fun _ he => he)
    fun _ _ _ hw' _ => .pure hw' trivial

end Members

/-! ## Node by node -/

section Nodes

variable {ctx : Context} {w : Heap ctx.types F} {kind : Kind} {x y z : Eval Value} {xs : Eval (List Value)}
  {s u r p : Option Ty} {t : Ty} {m : Member} {self : Value} {env : Environment} {v : Var} {loc : Loc} {n : Nat}
  {items : Eval (Array Value)} {params : List Ty}

theorem Yields.owning (hctx : ctx.Typed w) (hx : Yields w x s) (h : ctx.types.convertsImplicitlyOf s u = true) :
    Yields w (owning ctx kind s u x) u := by
  refine Lasts.bind hx fun w₂ v _ h₂ hv => ?_
  refine (Answers.at_ (settles_convert hctx.host.types h₂ hv h false)).bind fun w₃ u _ h₃ hu => ?_
  exact .lift (settles_clone h₃ hu)

theorem Yields.ownReceiver (hx : Yields w x s) (temporary : Bool) : Yields w (ownReceiver temporary x) s := by
  refine Lasts.bind hx fun w₂ v _ h₂ hv => ?_
  split
  · exact .lift (settles_clone h₂ hv)
  · exact .pure h₂ hv

theorem Yields.member (hctx : ctx.Typed w) (hx : Yields w x (some t)) (hm : ctx.types.member? t m.name = some m)
    (temporary : Bool) : Yields w (evalMember ctx (some t) temporary m x) m.type := by
  unfold evalMember
  split
  · exact Lasts.bind hx fun w₂ v hext₂ h₂ hv => .at_ (answers_readMember (hctx.mono hext₂) h₂ hm hv)
  · exact Lasts.bind (hx.ownReceiver temporary) fun w₂ v hext₂ h₂ hv =>
      .at_ (answers_readMember (hctx.mono hext₂) h₂ hm hv)

theorem Yields.call (hctx : ctx.Typed w) (hx : Yields w x (some t)) {m : Method} (hxs : YieldsAll w xs m.params)
    (hm : ctx.types.Declares m) (hs : m.isStatic = false)
    (ho : Build.hasMethodsOf ctx.types t m.owner = true) (temporary : Bool) :
    Yields w (evalCall ctx (some t) temporary m x xs) m.result := by
  refine Lasts.bind (hx.ownReceiver temporary) fun w₂ self hext₂ h₂ hself => ?_
  refine (Answers.locate (hxs w₂ hext₂ h₂)).bind fun w₃ values hext₃ h₃ hvalues => ?_
  exact .at_ (answers_invoke (hctx.mono (hext₂.trans hext₃)) h₃ hm hs (hself.mono hext₃)
    (fun d hd hn => hd.hasMethodsOf hctx.host.types.closed hn ho) hvalues)

theorem YieldsAll.static (hctx : ctx.Typed w) {m : Method} (hxs : YieldsAll w xs m.params)
    (hm : ctx.types.Declares m) (hs : m.isStatic = true) (hself : self.datum = .null) :
    Yields w (evalStatic ctx kind m self xs) m.result := by
  intro w₁ hext₁ h₁
  refine (Answers.locate (hxs w₁ hext₁ h₁)).bind fun w₂ values hext₂ h₂ hvalues => ?_
  exact .at_ (answers_invokeStatic (hctx.mono (hext₁.trans hext₂)) h₂ hm hs hself hvalues)

theorem YieldsAll.new (hctx : ctx.Typed w) {ctor : Option Method} (hxs : YieldsAll w xs (ctorParams ctor))
    (h : Build.cannotConstruct ctx.types t = false) (hstring : t ≠ .string) (hnull : t ≠ .null)
    (hctor : ∀ c, ctor = some c → c ∈ (ctx.types.decl t).constructors) :
    Yields w (evalNew ctx t ctor xs) (some t) := by
  have hi : ctx.types.isInterface t = false := by
    simp only [Build.cannotConstruct, Bool.or_eq_false_iff] at h
    exact h.1.1.1
  intro w₁ hext₁ h₁
  refine (Answers.at_ (answers_allocate (hctx.mono hext₁) h₁ h hstring hnull)).bind
    fun w₂ obj hext₂ h₂ hobj => ?_
  have hext₂ := hext₁.trans hext₂
  split
  · exact .pure h₂ hobj.1
  · rename_i c
    refine (Answers.locate (hxs w₂ hext₂ h₂)).bind fun w₃ values hext₃ h₃ hvalues => ?_
    have hobj₃ := hobj.1.mono hext₃
    refine (Answers.at_ (answers_construct (hctx.mono (hext₂.trans hext₃)) h₃ hi (hctor c rfl) hobj₃ hobj.2
      hvalues)).bind fun w₄ _ hext₄ h₄ _ => ?_
    exact .pure h₄ (hobj₃.mono hext₄)

theorem Yields.storeMember (hctx : ctx.Typed w) (hx : Yields w x m.type)
    (hm : ctx.types.member? t m.name = some m) (hwritable : m.isWritable = true)
    (hself : w.HasType self (some t)) : Yields w (storeMember ctx kind (some t) self m x) m.type := by
  refine Lasts.bind hx fun w₂ v hext₂ h₂ hv => ?_
  refine (Answers.at_ (answers_writeMember (hctx.mono hext₂) h₂ hm hwritable (hself.mono hext₂) hv)).bind
    fun w₃ _ hext₃ h₃ _ => ?_
  exact .pure h₃ (hv.mono hext₃)

theorem yields_lambda (hctx : ctx.Typed w) {l : Lambda} (hl : w.Evaluates l env)
    (hsig : ctx.types.signature? l.type = some (l.params.map (·.type), l.result)) :
    Yields w (evalLambda ctx env l) (some l.type) := by
  intro w₁ hext₁ h₁
  have hmake : ∀ name : String, Answers w₁ (do
      let loc ← step fun s => s.addDelegate (.evaluated l name env ctx.maxDepth)
      return ⟨some l.type, .delegate loc⟩) (OfType (some l.type)) := by
    intro name n
    have hruns : w₁.Runs (.evaluated l name env ctx.maxDepth) := hl.mono hext₁
    have hserves : Delegate.Serves F (.evaluated l name env ctx.maxDepth) (l.params.map (·.type), l.result) :=
      rfl
    obtain ⟨w₂, hstore, hext₂, h₂, hv⟩ := makes_addDelegate hctx.host.types hsig hserves hruns h₁
    exact .of_ok rfl hstore hext₂ h₂ hv
  unfold evalLambda
  split
  · -- the closure is counted first
    exact fun n => hmake _ (n + 1)
  · exact hmake l.name

theorem Yields.cond (hx : Yields w x (some .bool)) (hy : Yields w y s) (hz : Yields w z s) :
    Yields w (evalCond x y z) s := by
  refine Lasts.bind hx fun w₂ v hext₂ h₂ _ => ?_
  split
  · exact hy w₂ hext₂ h₂
  · exact hz w₂ hext₂ h₂

theorem Yields.binary (hctx : ctx.Typed w) {op : BinaryOp} {l r : Ty} (hx : Yields w x (some l))
    (hy : Yields w y (some r)) (ht : Build.operatorType? ctx.types op l r = some t) :
    Yields w (evalBinary ctx op (some l) (some r) x y) (some t) := by
  refine Lasts.bind hx fun w₂ a hext₂ h₂ ha => ?_
  split
  · rename_i hop
    -- all of it is about truth values
    unfold Build.operatorType? at ht
    rw [if_pos hop] at ht
    split at ht
    · rename_i hlr
      simp only [Bool.and_eq_true, decide_eq_true_eq] at hlr
      obtain ⟨rfl, rfl⟩ := hlr
      cases ht
      split
      · exact .pure h₂ ha
      · exact hy w₂ hext₂ h₂
    · cases ht
  · rename_i hop
    exact (hy w₂ hext₂ h₂).bind fun w₃ b hext₃ h₃ hb =>
      .at_ (answers_operator hctx.host.types.declared h₃ (by simpa using hop) ht (ha.mono hext₃) hb)

theorem Yields.unary (hctx : ctx.Typed w) {op : UnaryOp} (hx : Yields w x (some t)) (hnot : op = .not → t = .bool)
    (hneg : op = .negate → ctx.types.isNumeric t = true) : Yields w (evalUnary ctx op x) (some t) :=
  Lasts.bind hx fun _ _ _ h₂ hv =>
    .lift (answers_unaryOperator hctx.host.types.declared h₂ hv hnot hneg)

theorem Yields.convert (hctx : ctx.Typed w) (hx : Yields w x s) (h : ctx.types.convertsExplicitlyOf s u = true) :
    Yields w (evalConvert ctx s u x) u :=
  Lasts.bind hx fun _ _ _ h₂ hv =>
    .of_located (Answers.located_convert (settles_convertExplicitly hctx.host.types h₂ hv h) _)

/-! ### Variables -/

theorem answers_cellOf (hw : w.Typed) (h : env.cell? v = some loc) :
    Exec.Answers w (cellOf env v) fun w' l => w' = w ∧ l = loc := by
  unfold cellOf
  rw [h]
  exact .pure hw ⟨rfl, rfl⟩

theorem yields_var (h : env.cell? v = some loc) (hc : w.HasCell loc v.type) :
    Yields w (at_ ctx .parameter do return (← get).load (← cellOf env v)) (some v.type) := by
  intro w₁ hext₁ h₁
  refine Answers.at_ (.get_bind ?_)
  refine Settles.bind (answers_cellOf h₁ h) ?_
  rintro w₂ _ hext₂ h₂ ⟨rfl, rfl⟩
  exact .pure h₂ (h₂.load (hc.mono hext₁))

theorem answers_store {v : Value} (hw : w.Typed) (hc : w.HasCell loc t) (hv : w.HasType v (some t)) :
    Answers w (modifyThe Store (fun s => s.store loc v) : Eval PUnit) fun _ _ => True := by
  obtain ⟨hext, hw'⟩ := hw.store hc hv
  exact fun n => .of_ok rfl rfl hext hw' trivial

theorem Yields.assignHost (hx : Yields w x (some t)) (hc : w.HasCell loc t) :
    Yields w (assignHost loc x) (some t) := by
  refine Lasts.bind hx fun w₂ u hext₂ h₂ hu => ?_
  exact (answers_store h₂ (hc.mono hext₂) hu).bind fun w₃ _ hext₃ h₃ _ =>
    .pure h₃ (hu.mono hext₃)

theorem Yields.assignVar (hx : Yields w x (some v.type)) (h : env.cell? v = some loc)
    (hc : w.HasCell loc v.type) : Yields w (assignVar ctx env v x) (some v.type) := by
  intro w₁ hext₁ h₁
  refine (Answers.at_ (answers_cellOf h₁ h)).bind ?_
  rintro w₂ _ hext₂ h₂ ⟨rfl, rfl⟩
  exact hx.assignHost hc w₂ hext₁ h₂

theorem Yields.assignMember (hctx : ctx.Typed w) (hx : Yields w x (some t)) (hy : Yields w y m.type)
    (hm : ctx.types.member? t m.name = some m) (hwritable : m.isWritable = true) (temporary : Bool) :
    Yields w (assignMember ctx (some t) temporary m x y) m.type := by
  intro w₁ hext₁ h₁
  unfold Walk.assignMember
  have hscalar : ctx.types.isScalar t = false := by
    cases hs : ctx.types.isScalar t with
    | false => rfl
    | true =>
      rw [hctx.host.types.declared.member?_of_scalar hs] at hm
      cases hm
  have hcheck : Exec.Answers w₁ (if ctx.types.isScalar t then illTyped (.scalarMember t) else pure ())
      fun w' _ => w' = w₁ := by
    rw [hscalar]
    exact .pure h₁ rfl
  refine (Answers.at_ hcheck).bind fun w₂ _ hext₂ h₂ _ => ?_
  have hext₂ := hext₁.trans hext₂
  refine (hx.ownReceiver temporary w₂ hext₂ h₂).bind fun w₃ self hext₃ h₃ hself => ?_
  have hext₃ := hext₂.trans hext₃
  exact Yields.storeMember (hctx.mono hext₃) (hy.later hext₃) hm hwritable hself w₃ (.refl w₃) h₃

/-! ### Arrays -/

theorem index_lt {i : Int64} (h : 0 ≤ i) (hn : i < Int64.ofNat n) : i.toInt.toNat < n := by
  rw [Int64.le_iff_toInt_le, Int64.toInt_zero] at h
  have hsize : Int64.size = 18446744073709551616 := rfl
  rw [Int64.lt_iff_toInt_lt, Int64.toInt_ofNat', hsize, Int.bmod_def] at hn
  split at hn <;> omega

theorem answers_elementOf (hctx : ctx.Typed w) {array index : Value} {e : Ty} (hw : w.Typed)
    (ha : w.HasType array (some (.array e))) :
    Exec.Answers w (elementOf ctx array index) fun w' r => w' = w ∧ ∃ loc a, array.datum = .array loc ∧
      w.known (.array loc) ∧ w.store.arrays[loc]? = some a ∧ a.elem = e ∧
      ∃ x, r.1[r.2]? = some x ∧ w.HasType x (some e) := by
  unfold elementOf
  split
  · exact .fail hw rfl
  rename_i hnil
  have hn : array.datum ≠ .null := by simpa [Value.isNil] using hnil
  obtain ⟨loc, a, hd, hk, hat, helem, hitems⟩ := hw.items hctx.host.types ha hn
  have hitems? : w.store.items? array = some a.items := by
    rw [Store.items?, hd]
    exact congrArg (Option.map (·.items)) hat
  refine .get_bind ?_
  refine Settles.bind (Settles.getSome (Q := fun w' items => w' = w ∧ items = a.items) hw hitems?
    ⟨rfl, rfl⟩) ?_
  rintro w₁ _ - h₁ ⟨rfl, rfl⟩
  dsimp only
  split
  · exact .fail h₁ rfl
  · rename_i hrange
    simp only [Bool.or_eq_true, decide_eq_true_eq, not_or, Int64.not_lt, Int64.not_le] at hrange
    have hlt := index_lt hrange.1 hrange.2
    refine .pure h₁ ⟨rfl, loc, a, hd, hk, hat, helem, _, Array.getElem?_eq_getElem hlt, ?_⟩
    exact hitems _ (Array.getElem_mem hlt)

theorem Yields.assignIndex (hctx : ctx.Typed w) (hx : Yields w x (some (.array t))) (hy : Yields w y s)
    (hz : Yields w z (some t)) : Yields w (assignIndex ctx x y z) (some t) := by
  refine Lasts.bind hx fun w₂ a hext₂ h₂ ha => ?_
  refine (hy w₂ hext₂ h₂).bind fun w₃ i hext₃ h₃ _ => ?_
  have hext₃' := hext₂.trans hext₃
  refine (hz w₃ hext₃' h₃).bind fun w₄ v hext₄ h₄ hv => ?_
  have ha₄ := ha.mono (hext₃.trans hext₄)
  refine (Answers.at_ (answers_elementOf (hctx.mono (hext₃'.trans hext₄)) h₄ ha₄)).bind ?_
  rintro w₅ r - h₅ ⟨rfl, loc, items, hd, hk, hat, rfl, -⟩
  obtain ⟨hext₆, h₆⟩ := h₅.setItem hd hk hat r.2 hv
  exact fun n => .of_ok rfl rfl hext₆ h₆ (hv.mono hext₆)

theorem Yields.index (hctx : ctx.Typed w) (hx : Yields w x (some (.array t))) (hy : Yields w y s) :
    Yields w (evalIndex ctx x y) (some t) := by
  refine Lasts.bind hx fun w₂ a hext₂ h₂ ha => ?_
  refine (hy w₂ hext₂ h₂).bind fun w₃ i hext₃ h₃ _ => ?_
  refine (Answers.at_ (answers_elementOf (hctx.mono (hext₂.trans hext₃)) h₃ (ha.mono hext₃))).bind ?_
  rintro w₄ r - h₄ ⟨rfl, loc, items, -, -, -, -, v, hv, hty⟩
  refine .pure h₄ ?_
  rw [Array.getD_eq_getD_getElem?, hv]
  exact hty

theorem Yields.length (hctx : ctx.Typed w) (hx : Yields w x (some (.array t))) :
    Yields w (evalLength ctx x) (some .int32) := by
  refine Lasts.bind hx fun w₂ a _ h₂ ha => Answers.at_ ?_
  split
  · exact .fail h₂ rfl
  rename_i hnil
  have hn : a.datum ≠ .null := by simpa [Value.isNil] using hnil
  obtain ⟨loc, items, hd, -, hat, -⟩ := h₂.items hctx.host.types ha hn
  have hitems? : w₂.store.items? a = some items.items := by
    rw [Store.items?, hd]
    exact congrArg (Option.map (·.items)) hat
  refine .get_bind ?_
  exact Settles.bind (Settles.getSome (Q := fun _ _ => True) h₂ hitems? trivial) fun _ _ _ h₃ _ =>
    .pure h₃ (hasType_int32 _)

theorem Yields.newArray (hctx : ctx.Typed w) (hx : Yields w x s) (elem : Ty) :
    Yields w (evalNewArray ctx elem x) (some (.array elem)) := by
  refine Lasts.bind hx fun w₂ n _ h₂ _ => Answers.at_ ?_
  split
  · exact .fail h₂ rfl
  · exact settles_makes (makes_newArray hctx.host.types _ h₂)

theorem yields_arrayOf (hctx : ctx.Typed w) {elem : Ty}
    (h : Lasts w items fun w' vs => ∀ v ∈ vs, w'.HasType v (some elem)) :
    Yields w (evalArrayOf elem items) (some (.array elem)) := by
  refine h.bind fun w₂ values _ h₂ hvalues => ?_
  exact .lift (settles_makes (makes_newArrayOf hctx.host.types h₂ hvalues))

/-! ### Arguments and delegates -/

theorem yieldsAll_args {params : List (Option Ty)} {m : Nat} (hlen : n = m)
    (h : Lasts w items fun w' vs => w'.HaveTypes vs.toList params) : YieldsAll w (evalArgs n m items) params := by
  unfold evalArgs
  rw [if_pos hlen]
  exact h.bind fun w₂ values _ h₂ hvalues => .pure h₂ hvalues

theorem yieldsAll_one {operand : Option Ty → Eval Value} (h : Yields w (operand p) p) :
    YieldsAll w (evalOne [p] operand) [p] := Lasts.bind h fun _ _ _ h₂ hv => .pure h₂ (.cons hv .nil)

theorem yieldsAll_two {q : Option Ty} {left right : Option Ty → Eval Value} (hl : Yields w (left p) p)
    (hr : Yields w (right q) q) : YieldsAll w (evalTwo [p, q] left right) [p, q] := by
  refine Lasts.bind hl fun w₂ a hext₂ h₂ ha => ?_
  refine (hr w₂ hext₂ h₂).bind fun w₃ b hext₃ h₃ hb => .pure h₃ ?_
  exact .cons (ha.mono hext₃) (.cons hb .nil)

/-- **Calling a delegate** gives a value of the result type of its signature. -/
theorem answers_callValue (hctx : ctx.Typed w) (hw : w.Typed) (hsig : ctx.types.signature? t = some (params, r))
    {fn : Value} (hfn : w.HasType fn (some t)) (hvalues : w.HaveTypes values (params.map some)) :
    Answers w (evalApply.callValue ctx fn values) (Returns r) := by
  unfold evalApply.callValue
  split
  · exact .lift (.fail hw rfl)
  rename_i hnil
  have hn : fn.datum ≠ .null := by simpa [Value.isNil] using hnil
  obtain ⟨d, hd, hserves, hruns⟩ := hw.delegate hctx.host.types hsig hfn hn
  refine .getStore_bind ?_
  rw [hd]
  have hother : Answers w (do
      let v ← ctx.call d values
      clone v) (Returns r) := by
    refine (Answers.lift (hctx.call w (.refl w) hw d _ values hserves hruns hvalues)).bind
      fun w₁ v _ h₁ hv => ?_
    cases r with
    | none => exact .lift ((settles_cloneAny h₁ v).mono fun _ _ _ _ _ _ hu => by cases hu)
    | some u =>
      refine .lift ((settles_clone h₁ (hv u rfl)).mono fun _ _ _ _ hx u' hu' => ?_)
      cases hu'
      exact hx
  cases d with
  | compiled c => exact hother
  | evaluated l name env maxDepth =>
    obtain ⟨rfl, rfl⟩ : l.params.map (·.type) = params ∧ l.result = r := by
      have heq : (l.params.map (·.type), l.result) = (params, r) := hserves
      cases heq
      exact ⟨rfl, rfl⟩
    rw [map_map] at hvalues
    refine (hctx.enter w (.refl w) hw ⟨l, name, env⟩ values hruns hvalues).mono fun _ v _ _ hv u hu => ?_
    rw [← hu]
    exact hv
  | host name routine => exact hother

theorem Yields.apply (hctx : ctx.Typed w) (hsig : ctx.types.signature? t = some (params, r))
    (hx : Yields w x (some t)) (hxs : YieldsAll w xs (params.map some)) : Yields w (evalApply ctx r x xs) r := by
  refine Lasts.bind hx fun w₂ fn hext₂ h₂ hfn => ?_
  refine (Answers.locate (hxs w₂ hext₂ h₂)).bind fun w₃ values hext₃ h₃ hvalues => ?_
  have hcall := answers_callValue (hctx.mono (hext₂.trans hext₃)) h₃ hsig (hfn.mono hext₃) hvalues
  refine (Answers.locate hcall).bind fun w₄ v _ h₄ hv => ?_
  cases r with
  | none => exact .pure h₄ rfl
  | some u => exact .pure h₄ (hv u rfl)

/-! ### Scopes -/

section Scopes

variable {U : Universe} {w : Heap U F} {scope : Scope}

theorem answers_zeros (hU : U.Regular) (vars : List Var) (hw : w.Typed) :
    Exec.Answers w (zeros U vars) fun w' vs => w'.HaveTypes vs (vars.map fun v => some v.type) := by
  unfold zeros
  induction vars generalizing w with
  | nil => exact .pure hw .nil
  | cons v vars ih =>
    rw [mapM_cons]
    refine Settles.bind (settles_makes (makes_zero hU v.type hw)) fun w₁ u _ h₁ hu => ?_
    exact Settles.bind (ih h₁) fun w₂ us hext₂ h₂ hus => .pure h₂ (.cons (hu.mono hext₂) hus)

/-- The scope has a cell for each of the variables that were declared in it, the latest first, and for no
others. -/
def ScopeBinds (w : Heap U F) (declared : List Var) (scope : Scope) : Prop :=
  ∀ id, match declared.find? (·.id = id) with
    | some v => ∃ loc, scope.lookup id = some loc ∧ w.HasCell loc v.type
    | none => scope.lookup id = none

theorem ScopeBinds.bind {w' : Heap U F} (h : ScopeBinds w declared scope)
    (hext : w'.Extends w) {v : Var} {loc : Loc} (hc : w'.HasCell loc v.type) :
    ScopeBinds w' (v :: declared) (scope.bind v loc) := by
  intro id
  have hlookup : (scope.bind v loc).lookup id = _ := lookup_replace v.id id loc scope
  rw [hlookup]
  by_cases hid : v.id = id
  · rw [find?_cons_of_pos (by simpa using hid), if_pos hid.symm]
    exact ⟨loc, rfl, hc⟩
  · rw [find?_cons_of_neg (by simpa using hid), if_neg (Ne.symm hid)]
    have hold := h id
    split
    · rename_i u hu
      rw [hu] at hold
      obtain ⟨loc', hloc, hcell⟩ := hold
      exact ⟨loc', hloc, hcell.mono hext⟩
    · rename_i hnone
      rw [hnone] at hold
      exact hold

/-- The cells of variables are made one after the other. -/
theorem answers_bindAll (hU : U.Regular) (hw : w.Typed)
    (hscope : ScopeBinds w declared scope) (hvalues : w.HaveTypes values (vars.map fun v => some v.type)) :
    Exec.Answers w ((vars.zip values).foldlM (fun (scope : Scope) (p : Var × Value) => do
      let loc ← newCell U (some p.1.type) p.2
      return scope.bind p.1 loc) scope) fun w' scope' => ScopeBinds w' (vars.reverse ++ declared) scope' := by
  induction vars generalizing values w declared scope with
  | nil => exact .pure hw hscope
  | cons p vars ih =>
    cases hvalues with
    | @cons v _ values _ hv hrest =>
      obtain ⟨w₁, hstore, hext₁, h₁, hcell⟩ := makes_newCell hU hw hv
      rw [zip_cons_cons, foldlM_cons]
      have hstep : Exec.Answers w (do
          let loc ← newCell U (some p.type) v
          return scope.bind p loc) fun w' scope' => w' = w₁ ∧ ScopeBinds w₁ (p :: declared) scope' := by
        unfold newCell
        rw [bind_assoc]
        exact .nesting_bind hw (.of_ok rfl hstore hext₁ h₁ ⟨rfl, hscope.bind hext₁ hcell⟩)
      refine Settles.bind hstep ?_
      rintro w₂ scope' - h₂ ⟨rfl, hscope'⟩
      rw [reverse_cons, append_assoc]
      exact ih h₂ hscope' (Heap.HaveTypes.mono hrest hext₁)

theorem answers_declareAll (hU : U.Regular) {env : Environment} {scope : List Var} (vars : List Var)
    (hw : w.Typed) (hvalues : w.HaveTypes values (vars.map fun v => some v.type))
    (henv : w.Binds scope env) : Exec.Answers w (declareAll U env vars values) fun w' env' =>
      w'.Binds (vars.reverse ++ scope) env' := by
  have hempty : ScopeBinds w [] [] := fun _ => rfl
  refine Settles.bind (answers_bindAll hU hw hempty hvalues) fun w₁ sc hext₁ h₁ hsc => .pure h₁ ?_
  intro v hv
  have hin := hsc v.id
  rw [append_nil] at hin
  rw [find?_append] at hv
  cases hfind : vars.reverse.find? (·.id = v.id) with
  | some u =>
    rw [hfind] at hv hin
    cases hv
    obtain ⟨loc, hloc, hcell⟩ := hin
    refine ⟨loc, ?_, hcell⟩
    rw [Environment.cell?, findSome?_cons, hloc]
  | none =>
    rw [hfind] at hv hin
    obtain ⟨loc, hloc, hcell⟩ := henv v hv
    refine ⟨loc, ?_, hcell.mono hext₁⟩
    rw [Environment.cell?, findSome?_cons, hin]
    exact hloc

end Scopes

theorem yields_block (hctx : ctx.Typed w) {scope : List Var} {body : Environment → Eval Value}
    (henv : w.Binds scope env)
    (h : ∀ w' : Heap ctx.types F, w'.Extends w → ∀ env', w'.Binds (vars.reverse ++ scope) env' → Yields w'
      (body env') s) :
    Yields w (evalBlock ctx env vars s.isNone body) s := by
  intro w₁ hext₁ h₁
  have hU := hctx.host.types
  refine (Answers.lift (answers_zeros hU vars h₁)).bind fun w₂ values hext₂ h₂ hvalues => ?_
  have hext₂ := hext₁.trans hext₂
  refine (Answers.lift (answers_declareAll hU vars h₂ hvalues (henv.mono hext₂))).bind
    fun w₃ env' hext₃ h₃ henv' => ?_
  refine (h w₃ (hext₂.trans hext₃) env' henv' w₃ (.refl w₃) h₃).bind fun w₄ last _ h₄ hlast => .pure h₄ ?_
  cases s with
  | none => exact rfl
  | some u => exact hlast

theorem Yields.init {new : Eval Value} {bindings : Value → Eval Unit} (hnew : Yields w new (some t))
    (h : ∀ (w' : Heap ctx.types F) (obj : Value), w'.Extends w → w'.HasType obj (some t) →
      Lasts w' (bindings obj) fun _ _ => True) : Yields w (evalInit new bindings) (some t) := by
  refine Lasts.bind hnew fun w₂ obj hext₂ h₂ hobj => ?_
  refine (h w₂ obj hext₂ hobj w₂ (.refl w₂) h₂).bind fun w₃ _ hext₃ h₃ _ => ?_
  exact .pure h₃ (hobj.mono hext₃)

end Nodes

end TreeMachine.Walk
