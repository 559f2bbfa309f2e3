import TreeMachine.Proofs.Codegen.Conversion
import TreeMachine.Proofs.Tree.Checked

/-!
# What the code of a node leaves

The code of a node leaves the value of the node on the stack, of the static type of the node, and nothing if the node
is void; and it declines where it fails. It does so if the code of its parts does: `Yields`. Every kind of node is one
statement here, except those that branch and those that declare variables.

The parts that take a value from the stack (a receiver, a value to store) are stated with the entry they find there,
because the code looks at it.
-/

open List

namespace TreeMachine.Codegen

open Effect

variable {op : Opcode} {path : Bool} {m : Method} {args : List Expr} {argsCode : List Plan → Codegen Unit}
  {source : Option Ty} {a b : Ty} {code array : Codegen Unit}
  {ctx : Context} {r : Bool} {strict : Prop} {P : Bindings → Prop} {kind : Kind} {s s' : CodegenState}
  {base before after : List StackEntry} {e : StackEntry} {β : Type} {R : β → CodegenState → Prop}

theorem entriesOf_owned (t : Option Ty) : EntriesOf t (t.map owned).toList := by
  cases t with
  | none => rfl
  | some t => exact ⟨false, rfl⟩

theorem mem_of_lookup {κ α : Type} [BEq κ] [LawfulBEq κ] {entries : List (κ × α)} {id : κ} {a : α}
    (h : entries.lookup id = some a) : (id, a) ∈ entries := by
  obtain ⟨l, l', rfl, -⟩ := lookup_eq_some_iff.1 h
  simp

theorem Runs.checkProblem {node : Nat} {f : Unit → Codegen β} (h : Runs strict (f ()) s R) :
    Runs strict (checkProblem ctx kind node >>= f) s R := by
  unfold Codegen.checkProblem
  split
  · exact fun _ => rfl
  · exact h

/-! ## Values and variables -/

section

variable (hok : s.function.slots.Ok)
include hok

theorem runs_const {v : Value} :
    Runs strict (do emit kind .const [← constant kind (.value v)] [e] : Codegen Unit) s
      fun _ s' => Turned r [] [e] s s' :=
  runs_emitConstant hok (append_nil _).symm rfl rfl (fun _ => rfl) fun hk => ⟨v, hk⟩

theorem runs_newOf {t : Ty} (hop : op = .newAggregate ∨ op = .newObject) :
    Runs strict (do emit kind op [← constant kind (.type t)] [e] : Codegen Unit) s
      fun _ s' => Turned r [] [e] s s' := by
  rcases hop with rfl | rfl
  all_goals exact runs_emitConstant hok (append_nil _).symm rfl rfl (fun _ => rfl) fun hk => ⟨t, hk⟩

theorem runs_push (hop : isOrdinary op = true) (hlen : op.operands = []) (heff : of op [] #[] = .ok ⟨0, 1⟩) :
    Runs strict (emit kind op [] [e]) s fun _ s' => Turned r [] [e] s s' :=
  runs_plain hok (append_nil _).symm hop hlen heff

theorem runs_useHostCell {cell : Loc} : Runs strict (useHostCell cell) s fun _ s' => Turned r [] [] s s' := by
  show Turned r [] [] s (if s.hostCells.contains cell then s else { s with hostCells := s.hostCells.push cell })
  split
  · exact .refl _ hok
  · exact ⟨⟨hok, rfl, .refl _, .refl _, fun _ hb => hb⟩, fun hg => ⟨hg.image, hg.depths, hg.sound⟩⟩

end

theorem yields_constantCode (v : Value) {t : Option Ty} (ht : ∀ env, P env → ∃ u, t = some u) :
    Yields r P t (constantCode v t) := by
  intro strict s hs
  cases t with
  | none =>
    intro hstrict
    obtain ⟨u, hu⟩ := ht _ (hs.env hstrict)
    cases hu
  | some t =>
    refine .needType ?_
    split
    · exact .imp (runs_push hs.ok rfl rfl rfl) fun h => ⟨_, ⟨false, rfl⟩, h⟩
    · rename_i b _
      cases b <;> exact .imp (runs_push hs.ok rfl rfl rfl) fun h => ⟨_, ⟨false, rfl⟩, h⟩
    · exact .imp (runs_const hs.ok) fun h => ⟨_, ⟨true, rfl⟩, h⟩
    · exact .imp (runs_const hs.ok) fun h => ⟨_, ⟨false, rfl⟩, h⟩

theorem yields_variableCode (v : Var) : Yields r P (some v.type) (variableCode ctx v) := by
  intro strict s hs
  refine .checkProblem (.get_bind ?_)
  split
  · rename_i b hb
    have heff : ∀ ks, of b.place.load [b.index] ks = .ok ⟨0, 1⟩ := fun ks => by cases b.place <;> rfl
    refine .imp (runs_emit hs.ok (append_nil _).symm ?_ ?_ (heff _) fun {caps opened known e} hg => ?_)
      fun h => ⟨_, ⟨true, rfl⟩, h⟩
    · cases b.place <;> rfl
    · cases b.place <;> rfl
    · obtain ⟨G, hG⟩ := hg.sound
      have hvalid := hG.env _ (mem_of_lookup hb)
      unfold BindingValid at hvalid
      cases hp : b.place with
      | slot =>
        simp only [hp] at hvalid
        obtain ⟨sl, hslot, -, hc⟩ := hvalid
        exact ⟨_, Slots.mode_eq hslot, hc⟩
      | slotCell =>
        simp only [hp] at hvalid
        obtain ⟨sl, hslot, -, -⟩ := hG.known _ hvalid
        exact ⟨⟨_, Slots.mode_eq hslot⟩, hvalid⟩
      | free | freeCell =>
        simp only [hp] at hvalid
        exact hvalid
  · exact .decline

theorem yields_hostVarCode (cell : Loc) (t : Ty) : Yields r P (some t) (hostVarCode cell t) := by
  intro strict s hs
  refine .bind (runs_useHostCell (r := r) hs.ok) fun huse => ?_
  exact .leaves (runs_emitConstant huse.ok (append_nil _).symm rfl rfl (fun _ => rfl) fun hk => ⟨cell, hk⟩)
    huse ⟨true, rfl⟩

theorem yields_defaultCode (t : Ty) : Yields r P (some t) (defaultCode ctx kind t) := by
  intro strict s hs
  unfold defaultCode
  split
  · exact .imp (runs_const hs.ok) fun h => ⟨_, ⟨false, rfl⟩, h⟩
  · exact .imp (runs_newOf hs.ok (.inl rfl)) fun h => ⟨_, ⟨false, rfl⟩, h⟩
  all_goals exact .imp (runs_push hs.ok rfl rfl rfl) fun h => ⟨_, ⟨false, rfl⟩, h⟩

/-! ## Receivers -/

section

variable {t : Ty} {x : Codegen Unit} (hs : Ready strict P s)
include hs

theorem runs_throughSlot {slot : Nat} (hb : entries s = base ++ [e]) (hslot : Borrows slot s)
    (hx : ∀ {s₁ : CodegenState}, Ready strict P s₁ → entries s₁ = base ++ [aliased t] → Borrows slot s₁ →
      Runs strict x s₁ fun _ s₂ => Turned r [aliased t] after s₁ s₂) :
    Runs strict (do
      emit kind .storeLocal [slot] []
      emit kind .loadLocal [slot] [aliased t]
      x : Codegen Unit) s fun _ s' => Turned r [e] after s s' := by
  refine .bind (runs_storeLocal (r := r) hs.ok hb hslot) fun hstore => ?_
  refine .bind (runs_loadLocal (r := r) hstore.ok (hstore.borrows hslot)) fun hload => ?_
  have hboth := hstore.trans hload
  exact .imp (hx (hboth.ready hs) (hboth.entries _ hb) (hboth.borrows hslot)) hboth.trans

theorem runs_materialize (hb : entries s = base ++ [e])
    (hx : ∀ {s₁ : CodegenState}, Ready strict P s₁ → entries s₁ = base ++ [aliased t] →
      Runs strict x s₁ fun _ s₂ => Turned r [aliased t] after s₁ s₂) :
    Runs strict (materialize kind t x) s fun _ s' => Turned r [e] after s s' :=
  runs_withTemp hs fun hs₁ hentries hslot =>
    runs_throughSlot hs₁ (hentries.trans hb) hslot fun hs₂ hb₂ _ => hx hs₂ hb₂

theorem runs_withReceiver {receiver : Codegen Unit} (hr : Yields r P (some t) receiver)
    (hx : ∀ {s₁ : CodegenState} {a : Bool}, Ready strict P s₁ → entries s₁ = entries s ++ [⟨some t, a⟩] →
      Runs strict x s₁ fun _ s₂ => Turned r [⟨some t, a⟩] after s₁ s₂) :
    Runs strict (withReceiver ctx kind t path receiver x) s fun _ s' => Turned r [] after s s' := by
  refine hr.then hs fun hrecv hs₁ => .ite (fun _ => .imp (hx hs₁ hrecv.top) hrecv.trans) fun _ => ?_
  refine .bind (runs_own (r := r) hs₁.ok hrecv.top) fun ⟨a', hown⟩ => ?_
  have hboth := hrecv.trans hown
  exact .imp (runs_materialize (hboth.ready hs) hboth.top fun hs₂ hb => hx hs₂ hb) hboth.trans

end

/-! ## Calls -/

/-- The instructions that call a method of the pool: a call that looks at the receiver needs one. -/
def IsCall (op : Opcode) (m : Method) : Prop :=
  op = .call ∨ ((op = .callVirtual ∨ op = .callInterface) ∧ m.isStatic = false)

/-- The implementation that is called where a receiver is known to have one has the signature of the
method. -/
def KeepsSignature (U : Universe) (t : Ty) (m : Method) : Prop :=
  ∀ n, U.isValue t = true → U.resolve t m = some n → n.SameSignature m

theorem callTarget?_eq_some {U : Universe} {t : Ty} {n : Method}
    (hsig : KeepsSignature U t m) (h : callTarget? U t m = some (op, n)) : IsCall op n ∧ n.SameSignature m := by
  unfold callTarget? dispatch at h
  split_ifs at h with hstatic hvalue hface hslot
  case pos => grind [IsCall, Method.SameSignature.refl]
  all_goals
    split at h
    · split_ifs at h
      grind [IsCall, KeepsSignature, Method.SameSignature.refl]
    · cases h

theorem runs_callCode (hop : IsCall op m) (hok : s.function.slots.Ok)
    (hb : entries s = base ++ before) (hlen : before.length = (ofCall m).pop) :
    Runs strict (callCode kind op m) s fun _ s' => Turned r before (m.result.map owned).toList s s' := by
  have hresults : (ofCall m).push = (m.result.map owned).toList.length := by
    rw [ofCall]
    cases m.result <;> rfl
  refine runs_emitConstant hok hb ?_ ?_ (fun {ks i} hk => ?_) fun hk => ?_
  · rcases hop with rfl | ⟨rfl | rfl, -⟩ <;> rfl
  · rcases hop with rfl | ⟨rfl | rfl, -⟩ <;> rfl
  · rw [hlen, ← hresults]
    rcases hop with rfl | ⟨rfl | rfl, -⟩ <;> simp only [of, hk]
  · rcases hop with rfl | ⟨rfl | rfl, hm⟩
    · exact ⟨m, hk⟩
    · exact ⟨m, hk, hm⟩
    · exact ⟨m, hk, hm⟩

theorem runs_argsAndCall {argsCode : Codegen Unit} (hop : IsCall op m)
    (hm : m.isStatic = false) (hargs : YieldsEach r P m.params argsCode) (hs : Ready strict P s)
    (hb : entries s = base ++ [e]) :
    Runs strict (do argsCode; callCode kind op m : Codegen Unit) s
      fun _ s' => Turned r [e] (m.result.map owned).toList s s' := by
  refine hargs.then hs fun {es s₁} hes ht hs₁ => ?_
  have hpushed := (Turned.refl [e] hs.ok).push ht
  refine .imp (runs_callCode hop hs₁.ok (hpushed.entries _ hb) ?_) hpushed.trans
  have hlen := congrArg length hes
  rw [length_map] at hlen
  rw [ofCall, hm, length_append, hlen]
  exact Nat.add_comm _ _

theorem yields_callOnCode {t : Ty} {receiver : Codegen Unit}
    (hm : m.isStatic = false) (hsig : KeepsSignature ctx.types t m) (hr : Yields r P (some t) receiver)
    (hargs : ∀ {plans}, PlansFor ctx.types args m.params plans → YieldsEach r P m.params (argsCode plans)) :
    Yields r P m.result (callOnCode ctx kind (some t) path m args receiver argsCode) := by
  intro strict s hs
  refine .planArgs fun {plans} hfor => .needType ?_
  split
  · exact .decline
  · rename_i op n htarget
    obtain ⟨hop, hn⟩ := callTarget?_eq_some hsig htarget
    have hcall : ∀ {s₁ : CodegenState} {a : Bool}, Ready strict P s₁ → entries s₁ = entries s ++ [⟨some t, a⟩] →
        Runs strict (do argsCode plans; callCode kind op n : Codegen Unit) s₁
          fun _ s₂ => Turned r [⟨some t, a⟩] (m.result.map owned).toList s₁ s₂ := by
      intro s₁ a hs₁ hb
      rw [← hn.result]
      exact runs_argsAndCall hop (hn.isStatic.trans hm) (hn.params ▸ hargs hfor) hs₁ hb
    refine .leaves (.ite (fun _ => runs_withReceiver hs hr hcall) fun _ => ?_) (.refl [] hs.ok) (entriesOf_owned _)
    exact hr.then hs fun hrecv hs₁ => .imp (hcall hs₁ hrecv.top) hrecv.trans

theorem yields_callStaticCode (hm : m.isStatic = true)
    (hargs : ∀ {plans}, PlansFor ctx.types args m.params plans → YieldsEach r P m.params (argsCode plans)) :
    Yields r P m.result (callStaticCode ctx m args argsCode) := by
  intro strict s hs
  refine .planArgs fun hfor => (hargs hfor).then hs fun {es s₁} hes ht hs₁ => ?_
  refine .leaves (runs_callCode (.inl rfl) hs₁.ok ht.top ?_) ht (entriesOf_owned _)
  have hlen := congrArg length hes
  simp only [length_map] at hlen
  simp [ofCall, hm, hlen]

theorem yields_fieldCode {t : Ty} {f : Field} {object : Codegen Unit} (ho : Yields r P (some t) object) :
    Yields r P (some f.type) (fieldCode ctx f object) := by
  intro strict s hs
  refine ho.then hs fun {a s₁} hobj hs₁ => .peekTop hobj.top (.needType ?_)
  have hload : ∀ {s₁ : CodegenState} {base : List StackEntry} {e : StackEntry}, s₁.function.slots.Ok →
      entries s₁ = base ++ [e] → Runs strict (emit .memberAccess .getField [f.index] [aliased f.type]) s₁
        fun _ s₂ => Turned r [e] [aliased f.type] s₁ s₂ := fun hok hb =>
    runs_emit hok hb rfl rfl rfl fun _ => trivial
  split
  · refine .leaves (.ite (fun _ => hload hs₁.ok hobj.top) fun _ => ?_) hobj ⟨true, rfl⟩
    exact runs_materialize hs₁ hobj.top fun hs₂ hb => hload hs₂.ok hb
  · exact .leaves (hload hs₁.ok hobj.top) hobj ⟨true, rfl⟩
  · exact .decline

/-! ## Construction -/

theorem Runs.planCtor {ctor : Option Method} {f : List Plan → Codegen β}
    (hf : ∀ {plans : List Plan}, (∀ c, ctor = some c → PlansFor ctx.types args c.params plans) →
      Runs strict (f plans) s R) : Runs strict (planCtor ctx kind ctor args >>= f) s R := by
  cases ctor with
  | none => exact hf fun _ hc => by cases hc
  | some c =>
    simp only [Codegen.planCtor]
    split
    · exact fun _ => rfl
    · exact .planArgs fun hfor => hf fun _ hc => by cases hc; exact hfor

theorem runs_construct {c : Method} {argsCode : Codegen Unit} (hc : c.result = none ∧ c.isStatic = false)
    (hargs : YieldsEach r P c.params argsCode) (hs : Ready strict P s) (hb : entries s = base ++ [e]) :
    Runs strict (do argsCode; callCode kind .call c : Codegen Unit) s fun _ s' => Turned r [e] [] s s' := by
  have hcall : Runs strict (do argsCode; callCode kind .call c : Codegen Unit) s
      fun _ s' => Turned r [e] (c.result.map owned).toList s s' := runs_argsAndCall (.inl rfl) hc.2 hargs hs hb
  rw [hc.1] at hcall
  exact hcall

theorem yields_newCode {t : Ty} {ctor : Option Method} (hc : ∀ c, ctor = some c → c.result = none ∧ c.isStatic = false)
    (hargs : ∀ {c plans}, ctor = some c → PlansFor ctx.types args c.params plans →
      YieldsEach r P c.params (argsCode plans)) : Yields r P (some t) (newCode ctx kind t ctor args argsCode) := by
  intro strict s hs
  refine .ite (fun _ => .decline) fun _ => .planCtor fun {plans} hfor => ?_
  split
  · refine .assoc (.bind (runs_newOf (r := r) hs.ok (.inl rfl)) fun hnew => ?_)
    split
    · exact .pure ⟨_, ⟨false, rfl⟩, hnew⟩
    · -- a struct is constructed in a slot and loaded from there
      rename_i c
      refine .leaves (runs_withTemp (hnew.ready hs) fun hs₁ hentries hslot => ?_) hnew ⟨false, rfl⟩
      refine runs_throughSlot hs₁ (hentries.trans hnew.top) hslot fun hs₂ hb₂ hslot₂ => ?_
      refine .assoc (.bind (runs_construct (hc c rfl) (hargs rfl (hfor c rfl)) hs₂ hb₂) fun hcall => ?_)
      exact .imp (runs_loadLocal hcall.ok (hcall.borrows hslot₂)) hcall.trans
  · refine .assoc (.bind (runs_newOf (r := r) hs.ok (.inr rfl)) fun hnew => ?_)
    split
    · exact .pure ⟨_, ⟨false, rfl⟩, hnew⟩
    · rename_i c
      refine .bind (runs_plain (r := r) hnew.ok hnew.top rfl rfl rfl) fun hdup => ?_
      have hall := hnew.trans hdup
      exact .imp (runs_construct (hc c rfl) (hargs rfl (hfor c rfl)) (hall.ready hs) hall.split)
        fun h => ⟨_, ⟨false, rfl⟩, hall.trans (h.frame [owned t])⟩
  · exact .decline

/-! ## Stores to members -/

/-- The setter of a member takes one value, and so does its implementation. -/
def SetterFits (U : Universe) (t : Ty) (m : Member) : Prop :=
  ∀ p n, m = .property p → p.setter = some n →
    n.params.length = 1 ∧ n.result = none ∧ n.isStatic = false ∧ KeepsSignature U t n

def MemberStore.TakesTwo : MemberStore → Prop
  | .field _ => True
  | .setter op n => IsCall op n ∧ n.params.length = 1 ∧ n.result = none ∧ n.isStatic = false

theorem Runs.memberStore {t : Ty} {m : Member} {f : MemberStore → Codegen β} (hm : SetterFits ctx.types t m)
    (hf : ∀ {target : MemberStore}, target.TakesTwo → Runs strict (f target) s R) :
    Runs strict (memberStore ctx kind t m >>= f) s R := by
  cases m with
  | field f => exact hf trivial
  | property p =>
    simp only [Codegen.memberStore]
    split
    · exact fun _ => rfl
    · rename_i n hn
      obtain ⟨hparams, hresult, hstatic, hsig⟩ := hm p n rfl hn
      split
      · exact fun _ => rfl
      · rename_i op n' htarget
        obtain ⟨hop, hn'⟩ := callTarget?_eq_some hsig htarget
        have htwo : (MemberStore.setter op n').TakesTwo :=
          ⟨hop, hn'.params ▸ hparams, hn'.result ▸ hresult, hn'.isStatic ▸ hstatic⟩
        exact hf htwo

theorem runs_memberStore {target : MemberStore} {receiver value : StackEntry} (ht : target.TakesTwo)
    (hok : s.function.slots.Ok) (hb : entries s = base ++ [receiver, value]) : Runs strict (match target with
      | .field i => emit kind .setField [i] []
      | .setter op m => callCode kind op m) s fun _ s' => Turned r [receiver, value] [] s s' := by
  cases target with
  | field i => exact runs_emit hok hb rfl rfl rfl fun _ => trivial
  | setter op n =>
    obtain ⟨hop, hparams, hresult, hstatic⟩ := ht
    have hcall : Runs strict (callCode kind op n) s
        fun _ s' => Turned r [receiver, value] (n.result.map owned).toList s s' :=
      runs_callCode hop hok hb (by simp [ofCall, hparams, hstatic])
    rw [hresult] at hcall
    exact hcall

def kept (keep : Bool) (t : Ty) : List StackEntry := if keep then [aliased t] else []

/-- **A store to a member** takes the receiver; with `keep` the value stays. -/
theorem runs_storeMemberCode {t t' : Ty} {m : Member} {keep : Bool} {value : Codegen Unit}
    {receiver : StackEntry} (hm : SetterFits ctx.types t m) (ht : m.type = some t') (hv : Yields r P source value)
    (hs : Ready strict P s) (hb : entries s = base ++ [receiver]) :
    Runs strict (storeMemberCode ctx kind t m source keep value) s
      fun _ s' => Turned r [receiver] (kept keep t') s s' := by
  refine .plan fun {plan} hmade hsource htarget => .memberStore hm fun {target} htwo => ?_
  rw [ht] at htarget
  obtain ⟨t'', ht''⟩ := hmade.source_eq_some htarget
  rw [← hsource, ht''] at hv
  refine hv.then hs fun {a s₁} hvalue hs₁ => ?_
  refine .bind (runs_deliver (r := r) hmade hs₁.ok hvalue.top ht''.symm ht'') fun {_ s₂} ⟨a', hdeliver⟩ => ?_
  rw [htarget] at hdeliver
  have hall := (Turned.refl [receiver] hs.ok).push (hvalue.trans hdeliver)
  have hb₂ : entries s₂ = base ++ [receiver, ⟨some t', a'⟩] := hall.entries _ hb
  cases keep with
  | false => exact .imp (runs_memberStore htwo hall.ok hb₂) hall.trans
  | true =>
    refine .peekTop (hb₂.trans (append_assoc _ [receiver] _).symm) (.peek (by simp [hb₂]) fun {recv} => ?_)
    refine .bind (runs_plain (r := r) hall.ok hb₂ rfl rfl rfl) fun {_ s₃} hdup => ?_
    have hb₃ : entries s₃ = (base ++ [aliased t']) ++ [recv, aliased t'] := by
      rw [hdup.entries _ hb₂, append_assoc]
      rfl
    exact .imp (runs_memberStore htwo hdup.ok hb₃) fun h => hall.trans (hdup.trans (h.frame [aliased t']))

/-- Code that pushes a receiver of type `t` in all states with a property that code keeps; `below` are
the types of what it finds on the stack and leaves there. -/
structure Pushes (r : Bool) (t : Ty) (below : List (Option Ty)) (Q : CodegenState → Prop)
    (push : Codegen Unit) : Prop where
  kept : ∀ {before after : List StackEntry} {s s' : CodegenState}, Turned r before after s s' →
    Q s → Q s'
  run : ∀ {strict : Prop} {s : CodegenState} {base es : List StackEntry}, s.function.slots.Ok → Q s →
    entries s = base ++ es → es.map (·.type) = below →
    Runs strict push s fun _ s' => ∃ (es' : List StackEntry) (a : Bool), es'.map (·.type) = below ∧
      Turned r es (es' ++ [⟨some t, a⟩]) s s'

def StoresEach (r : Bool) (P : Bindings → Prop) (t : Ty) (bindings : Codegen Unit → Codegen Unit) : Prop :=
  ∀ ⦃push : Codegen Unit⦄ ⦃below : List (Option Ty)⦄ ⦃Q : CodegenState → Prop⦄, Pushes r t below Q push →
    ∀ ⦃strict : Prop⦄ ⦃s : CodegenState⦄ ⦃base es : List StackEntry⦄, Ready strict P s → Q s →
      entries s = base ++ es → es.map (·.type) = below →
      Runs strict (bindings push) s fun _ s' => ∃ es' : List StackEntry, es'.map (·.type) = below ∧
        Turned r es es' s s'

theorem eq_singleton_of_types {es : List StackEntry} {t : Ty} (h : es.map (·.type) = [some t]) :
    ∃ a, es = [⟨some t, a⟩] := by
  obtain ⟨e, rfl, he⟩ := map_eq_singleton_iff.1 h
  exact ⟨e.addressable, by rw [← he]⟩

theorem pushes_dup (t : Ty) : Pushes r t [some t] (fun _ => True) (emit .memberInit .dup [] [owned t, owned t]) := by
  refine ⟨fun _ _ => trivial, fun {strict s base es} hok _ hb hes => ?_⟩
  obtain ⟨a, rfl⟩ := eq_singleton_of_types hes
  exact .imp (runs_plain hok hb rfl rfl rfl) fun h => ⟨[owned t], false, rfl, h⟩

theorem pushes_loadLocal (t : Ty) (slot : Nat) :
    Pushes r t [] (Borrows slot) (emit .memberInit .loadLocal [slot] [aliased t]) := by
  refine ⟨fun ht hs => ht.borrows hs, fun {strict s base es} hok hs _ hes => ?_⟩
  obtain rfl := map_eq_nil_iff.1 hes
  exact .imp (runs_loadLocal hok hs) fun h => ⟨[], true, rfl, h⟩

theorem yields_initCode {t : Ty} {new : Codegen Unit} {bindings : Codegen Unit → Codegen Unit}
    (hnew : Yields r P (some t) new) (hstores : StoresEach r P t bindings) :
    Yields r P (some t) (initCode ctx t new bindings) := by
  intro strict s hs
  refine hnew.then hs fun {a s₁} hrun hs₁ => .ite (fun _ => ?_) fun _ => ?_
  · refine .imp (hstores (pushes_dup t) hs₁ trivial hrun.top rfl) fun {_ s'} ⟨es, hes, ht⟩ => ?_
    obtain ⟨a', rfl⟩ := eq_singleton_of_types hes
    exact ⟨_, ⟨a', rfl⟩, hrun.trans ht⟩
  · -- the members are stored to in a slot, and the struct is loaded from there
    refine .leaves (runs_withTemp hs₁ fun {slot s₂} hs₂ hentries hslot => ?_) hrun ⟨false, rfl⟩
    refine .bind (runs_storeLocal (r := r) hs₂.ok (hentries.trans hrun.top) hslot) fun hstore => ?_
    refine .bind (hstores (pushes_loadLocal t slot) (hstore.ready hs₂) (hstore.borrows hslot)
      (append_nil _).symm rfl) fun {_ s₃} ⟨es, hes, ht⟩ => ?_
    obtain rfl := map_eq_nil_iff.1 hes
    have hboth := hstore.trans ht
    exact .imp (runs_loadLocal hboth.ok (hboth.borrows hslot)) hboth.trans

/-! ## Operators -/

theorem yields_convertCode {target : Option Ty} {operand : Codegen Unit}
    (ho : Yields r P source operand) : Yields r P target (convertCode ctx source target operand) := by
  intro strict s hs
  refine .plan fun {plan} hmade hsource htarget => ?_
  cases source with
  | none =>
    -- void becomes void only, and then nothing is to be done
    have hvoid : target = none := by
      cases target with
      | none => rfl
      | some t =>
        obtain ⟨u, hu⟩ := hmade.source_eq_some htarget
        rw [hsource] at hu
        cases hu
    subst hvoid
    have hid : plan.isIdentity = true := by simp [Plan.isIdentity, hsource, htarget]
    refine .bind (ho hs) fun h => ?_
    simp only [convert, hid, if_true]
    exact .pure h
  | some t =>
    obtain ⟨t', ht'⟩ := hmade.target_eq_some hsource
    refine ho.then hs fun hrun hs₁ => ?_
    refine .imp (runs_convert (r := r) hmade hs₁.ok hrun.top hsource.symm hsource) fun hconvert => ?_
    obtain ⟨a, hconvert⟩ := hconvert
    rw [ht'] at hconvert
    rw [← htarget, ht']
    exact ⟨_, ⟨a, rfl⟩, hrun.trans hconvert⟩

theorem operatorOpcode_binary (U : Universe) (op : BinaryOp) (l r : Option Ty) :
    isOrdinary (operatorOpcode U op l r) = true ∧ (operatorOpcode U op l r).operands = [] ∧
      of (operatorOpcode U op l r) [] #[] = .ok ⟨2, 1⟩ := by
  unfold operatorOpcode
  cases op <;> dsimp only <;> (try split_ifs) <;> exact ⟨rfl, rfl, rfl⟩

theorem yields_strictCode {U : Universe} {op : BinaryOp} {t : Ty} {left right : Codegen Unit}
    (hl : Yields r P (some a) left) (hr : Yields r P (some b) right) :
    Yields r P (some t) (strictCode (operator? U op (some a) (some b)) t left right) := by
  intro strict s hs
  unfold operator?
  split
  · exact .decline
  · refine hl.then hs fun hleft hs₁ => hr.then hs₁ fun hright hs₂ => ?_
    obtain ⟨hop, hlen, heff⟩ := operatorOpcode_binary U op (some a) (some b)
    have hboth := hleft.push hright
    exact .leaves (runs_plain hs₂.ok hboth.top hop hlen heff) hboth ⟨false, rfl⟩

theorem yields_unaryCode {op : UnaryOp} {t : Ty} {operand : Codegen Unit} (ho : Yields r P (some t) operand) :
    Yields r P (some t) (unaryCode op (some t) operand) := by
  intro strict s hs
  refine ho.then hs fun hrun hs₁ => .needType ?_
  cases op <;> exact .leaves (runs_plain hs₁.ok hrun.top rfl rfl rfl) hrun ⟨false, rfl⟩

/-! ## Assignments -/

theorem runs_valueCode {plan : Plan} {t : Ty}
    (hmade : plan.Made ctx.types) (hsource : plan.source = source) (htarget : plan.target = some t)
    (hc : Yields r P source code) (hs : Ready strict P s) :
    Runs strict (valueCode ctx plan code) s fun _ s' => ∃ a, Turned r [] [⟨some t, a⟩] s s' := by
  obtain ⟨t', ht'⟩ := hmade.source_eq_some htarget
  rw [← hsource, ht'] at hc
  rw [← htarget]
  exact hc.then hs fun hrun hs₁ =>
    .imp (runs_deliver hmade hs₁.ok hrun.top ht'.symm ht') fun ⟨a, h⟩ => ⟨a, hrun.trans h⟩

theorem runs_dupResult {t : Ty} {a : Bool} (hok : s.function.slots.Ok) (hb : entries s = base ++ [⟨some t, a⟩]) :
    Runs strict dupResult s fun _ s' => Turned r [⟨some t, a⟩] [aliased t, aliased t] s s' :=
  .peekTop hb (runs_plain hok hb rfl rfl rfl)

theorem runs_storeVariable {b : Binding} {id : Nat} (hmem : (id, b) ∈ s.function.env)
    (hop : b.place.store? = some op) (hok : s.function.slots.Ok) (hb : entries s = base ++ [e]) :
    Runs strict (emit kind op [b.index] []) s fun _ s' => Turned r [e] [] s s' := by
  have hvalid : ∀ {caps opened known}, Good r caps opened known true s →
      BindingValid s.function.slots caps known b ∧
        ∀ x ∈ known, ∃ sl, s.function.slots.slots[x.1]? = some sl := by
    intro caps opened known hg
    obtain ⟨G, hG⟩ := hg.sound
    refine ⟨hG.env _ hmem, fun x hx => ?_⟩
    obtain ⟨sl, hs, -⟩ := hG.known x hx
    exact ⟨sl, hs⟩
  unfold BindingValid at hvalid
  cases hp : b.place with
  | slot =>
    rw [hp] at hop
    cases hop
    refine .intro (fun h => turned_storeTo h hok fun hg => ?_) fun _ => declines_emit hb rfl rfl
    have hbind := (hvalid hg).1
    simp only [hp] at hbind
    obtain ⟨sl, hs, -, hc⟩ := hbind
    exact ⟨sl, hs, hc⟩
  | slotCell =>
    rw [hp] at hop
    cases hop
    refine runs_emit hok hb rfl rfl rfl fun hg => ?_
    have hbind := (hvalid hg).1
    simp only [hp] at hbind
    obtain ⟨sl, hs⟩ := (hvalid hg).2 _ hbind
    exact ⟨⟨_, Slots.mode_eq hs⟩, hbind⟩
  | free =>
    rw [hp] at hop
    cases hop
  | freeCell =>
    rw [hp] at hop
    cases hop
    refine runs_emit hok hb rfl rfl rfl fun hg => ?_
    have hbind := (hvalid hg).1
    simp only [hp] at hbind
    exact hbind

theorem yields_assignVarCode {v : Var} (hc : Yields r P source code)
    (hstore : ∀ env b, P env → env.lookup v.id = some b → b.place ≠ .free) :
    Yields r P (some v.type) (assignVarCode ctx v source code) := by
  intro strict s hs
  refine .plan fun hmade hsource htarget => .get_bind ?_
  split
  · exact .decline
  · rename_i b hb
    split
    · rename_i hnone
      intro hstrict
      refine absurd ?_ (hstore _ b (hs.env hstrict) hb)
      cases hp : b.place <;> rw [hp] at hnone <;> simp [Place.store?] at hnone
    · rename_i op hop
      refine .bind (runs_valueCode hmade hsource htarget hc hs) fun ⟨a, hvalue⟩ => ?_
      refine .bind (runs_dupResult (r := r) hvalue.ok hvalue.top) fun {_ s₂} hdup => ?_
      have hall := hvalue.trans hdup
      have hmem : (v.id, b) ∈ s₂.function.env := by
        rw [hall.env]
        exact mem_of_lookup hb
      exact .imp (runs_storeVariable hmem hop hall.ok hall.split)
        fun h => ⟨_, ⟨true, rfl⟩, hall.trans (h.frame [aliased v.type])⟩

theorem yields_assignHostCode {cell : Loc} {t : Ty}
    (hc : Yields r P source code) : Yields r P (some t) (assignHostCode ctx cell t source code) := by
  intro strict s hs
  refine .plan fun hmade hsource htarget => .bind (runs_valueCode hmade hsource htarget hc hs) fun ⟨a, hvalue⟩ => ?_
  refine .bind (runs_useHostCell (r := r) hvalue.ok) fun huse => ?_
  have huse := hvalue.push huse
  refine .bind (runs_dupResult (r := r) huse.ok huse.top) fun hdup => ?_
  have hall := huse.trans hdup
  exact .imp (runs_emitConstant hall.ok hall.split rfl rfl (fun _ => rfl) fun hk => ⟨cell, hk⟩)
    fun h => ⟨_, ⟨true, rfl⟩, hall.trans (h.frame [aliased t])⟩

theorem yields_assignMemberCode {m : Member} {t t' : Ty}
    {objectCode : Codegen Unit} (hm : SetterFits ctx.types t m) (ht : m.type = some t')
    (ho : Yields r P (some t) objectCode) (hc : Yields r P source code) :
    Yields r P (some t') (assignMemberCode ctx (some t) path m source objectCode code) := by
  intro strict s hs
  refine .plan fun _ _ _ => .needType (.ite (fun _ => .decline) fun _ => .ite (fun _ => .decline) fun _ => ?_)
  exact ho.then hs fun hobj hs₁ => .leaves (runs_storeMemberCode hm ht hc hs₁ hobj.top) hobj ⟨true, rfl⟩

theorem yields_assignIndexCode {t : Ty} {index : Codegen Unit}
    (ha : Yields r P (some a) array) (hi : Yields r P (some b) index) (hc : Yields r P source code) :
    Yields r P (some t) (assignIndexCode ctx (some t) source array index code) := by
  intro strict s hs
  refine .plan fun hmade hsource htarget => ha.then hs fun harray hs₁ => hi.then hs₁ fun hindex hs₂ => ?_
  refine .bind (runs_valueCode hmade hsource htarget hc hs₂) fun ⟨z, hvalue⟩ => ?_
  have hpushed := (harray.push hindex).push hvalue
  refine .peekTop hvalue.top (.peek (by simp [hpushed.top]) fun {i} => .peek (by simp [hpushed.top]) fun {o} => ?_)
  refine .bind (runs_plain (r := r) hpushed.ok hpushed.top rfl rfl rfl) fun hdup => ?_
  have hall := hpushed.trans hdup
  exact .imp (runs_plain hall.ok hall.split rfl rfl rfl) fun h => ⟨_, ⟨true, rfl⟩, hall.trans (h.frame [aliased t])⟩

/-! ## Delegates and arrays -/

theorem yields_applyCode {t : Ty} {params : List Ty} {result : Option Ty}
    {function : Codegen Unit} (hf : Yields r P (some t) function)
    (hargs : ∀ {plans}, PlansFor ctx.types args (params.map some) plans →
      YieldsEach r P (params.map some) (argsCode plans)) :
    Yields r P result (applyCode ctx (some (params, result)) args function argsCode) := by
  intro strict s hs
  refine .planArgs fun hfor => hf.then hs fun {a s₁} hfun hs₁ => (hargs hfor).then hs₁ fun {es s₂} hes hrun hs₂ => ?_
  have hall := hfun.push hrun
  have hlen : ([(⟨some t, a⟩ : StackEntry)] ++ es).length = args.length + 1 := by
    have hlen := congrArg length hes
    have hlen' := hfor.1.length_eq
    have hlen'' := congrArg length hfor.2
    simp only [length_map, length_append, length_cons, length_nil] at hlen hlen'' ⊢
    omega
  refine .leaves (runs_emit hs₂.ok hall.top rfl rfl ?_ fun _ => ?_) hall (entriesOf_owned _)
  · rw [hlen]
    cases result <;> rfl
  · show (if result.isSome = true then 1 else 0) ≤ 1
    split <;> omega

theorem yields_newArrayCode {t elem : Ty} {length : Codegen Unit} (hl : Yields r P (some t) length) :
    Yields r P (some (.array elem)) (newArrayCode elem length) := fun _ _ hs =>
  hl.then hs fun hrun hs₁ => .leaves (runs_emitConstant hs₁.ok hrun.top rfl rfl (fun _ => rfl) fun hk => ⟨elem, hk⟩)
    hrun ⟨false, rfl⟩

theorem yields_arrayOfCode {elem : Ty} {items : List Expr} {itemsCode : List Plan → Codegen Unit}
    (hitems : ∀ {plans}, PlansFor ctx.types items (items.map fun _ => some elem) plans →
      YieldsEach r P (items.map fun _ => some elem) (itemsCode plans)) :
    Yields r P (some (.array elem)) (arrayOfCode ctx elem items itemsCode) := by
  intro strict s hs
  refine .bind (runs_planEach (by simp)) ?_
  rintro plans _ ⟨rfl, ps, rfl, hfor⟩
  refine (hitems hfor).then hs fun {es s₁} hes hrun hs₁ => ?_
  refine .bind (runs_constant (r := r) hs₁.ok) fun ⟨hconst, hk⟩ => ?_
  have hall := hrun.push hconst
  refine .leaves (runs_emit hall.ok hall.top rfl rfl ?_ fun _ => ⟨elem, hk⟩) hall ⟨false, rfl⟩
  have hlen := congrArg length hes
  simp only [length_map] at hlen
  rw [append_nil, hlen]
  rfl

theorem yields_indexCode {t : Ty} {index : Codegen Unit} (ha : Yields r P (some a) array)
    (hi : Yields r P (some b) index) : Yields r P (some t) (indexCode (some t) array index) := by
  intro strict s hs
  refine ha.then hs fun harray hs₁ => hi.then hs₁ fun hindex hs₂ => .needType ?_
  have hboth := harray.push hindex
  exact .leaves (runs_plain hs₂.ok hboth.top rfl rfl rfl) hboth ⟨true, rfl⟩

theorem yields_lengthCode (ha : Yields r P (some a) array) :
    Yields r P (some .int32) (lengthCode array) := fun _ _ hs =>
  ha.then hs fun harray hs₁ => .leaves (runs_plain hs₁.ok harray.top rfl rfl rfl) harray ⟨false, rfl⟩

end TreeMachine.Codegen
