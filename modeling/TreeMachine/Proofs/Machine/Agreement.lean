import TreeMachine.Callable
import TreeMachine.Proofs.Host.Bodies
import TreeMachine.Proofs.Machine.Fetch

/-!
# Instructions keep correspondences

The same instruction in two frames with equal operand stacks: what it does to the stack and the store is the
same in both, if the slots that it reads hold the same. The frames may belong to different closures and have
different slots.

* **`Frame.Restacked f g`** relates frames that came from `f` and `g` by the same change of the stack, and
  `Frame.Level` says what is known of the values on it.
* **`Machine.relates_execute`** says what instructions do that differ in slots only.
-/

namespace TreeMachine

open Correspondence (Relates passes_plain)
open Effect

variable {K : Correspondence} {w w' : K.World} {α β : Type}

/-! ## Frames -/

namespace Frame

/-- The frames `f` and `g` with one operand stack. -/
inductive Restacked (f g : Frame) : Frame → Frame → Prop
  | mk (stack : Array Value) : Restacked f g { f with stack := stack } { g with stack := stack }

/-- The values on the stack may be passed on, and they are `d` where the machine must not fail for a check. -/
structure Level (K : Correspondence) (w : K.World) (f g : Frame) (d : Nat) (a b : Frame) : Prop where
  restacked : Restacked f g a b
  passes : ∀ v ∈ a.stack, K.Passes w v
  size : K.Strict → a.stack.size = d

theorem mem_of_mem_extract {xs : Array α} {i j : Nat} {x : α} (h : x ∈ xs.extract i j) : x ∈ xs := by
  obtain ⟨k, _, rfl⟩ := Array.mem_extract_iff_getElem.1 h
  exact Array.getElem_mem _

theorem mem_of_mem_pop {xs : Array α} {x : α} (h : x ∈ xs.pop) : x ∈ xs := by
  rw [← Array.mem_toList_iff, Array.toList_pop] at h
  exact Array.mem_toList_iff.1 (List.dropLast_subset _ h)

namespace Level

variable {f g a b : Frame} {d n : Nat} {v : Value} {R : K.World → α → β → Prop}

theorem later (h : Level K w f g d a b) (hw : K.Later w w') : Level K w' f g d a b :=
  { h with passes := fun v hv => K.passes_later hw (h.passes v hv) }

theorem push (h : Level K w f g d a b) (hv : K.Passes w v) : Level K w f g (d + 1) (a.push v) (b.push v) := by
  obtain ⟨⟨stack⟩, hpasses, hsize⟩ := h
  exact ⟨⟨stack.push v⟩, Store.forall_mem_push hpasses hv,
    fun hs => (Array.size_push v).trans (congrArg (· + 1) (hsize hs))⟩

theorem jump (h : Level K w f g d a b) (ip : Nat) :
    Level K w { f with ip := ip } { g with ip := ip } d { a with ip := ip } { b with ip := ip } := by
  obtain ⟨⟨stack⟩, hpasses, hsize⟩ := h
  exact ⟨⟨stack⟩, hpasses, hsize⟩

theorem resize (h : Level K w f g d a b) (hd : K.Strict → d = n) : Level K w f g n a b :=
  { h with size := fun hs => (h.size hs).trans (hd hs) }

protected theorem pure (h : Level K w f g d a b) :
    K.Relates w (fun w => Level K w f g d) (pure a) (pure b) := .pure fun _ hw => h.later hw

theorem pop_cases (h : Level K w f g (d + 1) a b) :
    (¬K.Strict ∧ a.pop = Exec.panic .stackUnderflow ∧ b.pop = Exec.panic .stackUnderflow) ∨
      ∃ v a' b', a.pop = pure (v, a') ∧ b.pop = pure (v, b') ∧ K.Passes w v ∧ Level K w f g d a' b' := by
  obtain ⟨⟨stack⟩, hpasses, hsize⟩ := h
  unfold Frame.pop
  dsimp only at *
  cases hback : stack.back? with
  | none =>
    refine .inl ⟨fun hs => ?_, rfl, rfl⟩
    rw [Array.back?_eq_none_iff] at hback
    have hzero := hsize hs
    rw [hback] at hzero
    cases hzero
  | some v =>
    have hmem : v ∈ stack := Array.mem_of_back? hback
    refine .inr ⟨v, _, _, rfl, rfl, hpasses v hmem, ⟨stack.pop⟩, fun u hu => hpasses u (mem_of_mem_pop hu),
      fun hs => ?_⟩
    rw [Array.size_pop, hsize hs]
    rfl

theorem popN_cases (h : Level K w f g (d + n) a b) :
    (¬K.Strict ∧ a.popN n = Exec.panic .stackUnderflow ∧ b.popN n = Exec.panic .stackUnderflow) ∨
      ∃ vs a' b', a.popN n = pure (vs, a') ∧ b.popN n = pure (vs, b') ∧ K.PassesAll w vs ∧ Level K w f g d a' b' := by
  obtain ⟨⟨stack⟩, hpasses, hsize⟩ := h
  unfold Frame.popN
  dsimp only at *
  by_cases hle : n ≤ stack.size
  · rw [if_pos hle, if_pos hle]
    refine .inr ⟨_, _, _, rfl, rfl,
      fun v hv => hpasses v (mem_of_mem_extract (Array.mem_toList_iff.1 hv)), ⟨_⟩, fun v hv => ?_, fun hs => ?_⟩
    · simp only [Array.shrink_eq_take, Array.take_eq_extract] at hv
      exact hpasses v (mem_of_mem_extract hv)
    · rw [Array.size_shrink, hsize hs]
      omega
  · rw [if_neg hle, if_neg hle]
    refine .inl ⟨fun hs => ?_, rfl, rfl⟩
    have := hsize hs
    omega

theorem pop (h : Level K w f g (d + 1) a b) {x : Value × Frame → Exec α} {y : Value × Frame → Exec β}
    (hxy : ∀ v a b, K.Passes w v → Level K w f g d a b → K.Relates w R (x (v, a)) (y (v, b))) :
    K.Relates w R (a.pop >>= x) (b.pop >>= y) := by
  rcases h.pop_cases with ⟨hs, ha, hb⟩ | ⟨v, a', b', ha, hb, hv, hm⟩
  · rw [ha, hb]
    exact .panic fun h => (hs h).elim
  · rw [ha, hb]
    exact hxy v a' b' hv hm

theorem popN (h : Level K w f g (d + n) a b) {x : List Value × Frame → Exec α} {y : List Value × Frame → Exec β}
    (hxy : ∀ vs a b, K.PassesAll w vs → Level K w f g d a b → K.Relates w R (x (vs, a)) (y (vs, b))) :
    K.Relates w R (a.popN n >>= x) (b.popN n >>= y) := by
  rcases h.popN_cases with ⟨hs, ha, hb⟩ | ⟨vs, a', b', ha, hb, hvs, hm⟩
  · rw [ha, hb]
    exact .panic fun h => (hs h).elim
  · rw [ha, hb]
    exact hxy vs a' b' hvs hm

theorem peek (h : Level K w f g d a b) (hn : K.Strict → n < d) : K.Agrees w K.Passes (a.peek n) (b.peek n) := by
  obtain ⟨⟨stack⟩, hpasses, hsize⟩ := h
  have hcheck : K.Strict → n < stack.size := fun hs => hsize hs ▸ hn hs
  unfold Frame.peek
  dsimp only
  cases hat : stack[stack.size - 1 - n]? with
  | none =>
    refine .panic fun hs => ?_
    have := Array.getElem?_eq_none_iff.1 hat
    have := hcheck hs
    omega
  | some v =>
    exact .ite (fun _ => .value (hpasses v (Array.mem_of_getElem? hat))) fun hlt =>
      .panic fun hs => absurd (hcheck hs) hlt

end Level

end Frame

open TreeMachine.Frame (Level)

/-! ## Numbers -/

namespace Machine

theorem agrees_integer (U : Universe) (t : Option Ty) (n : Int64) :
    K.Agrees w K.Passes (integer U t n) (integer U t n) := by
  cases t with
  | some t => exact .plain rfl
  | none => exact .corrupt

theorem agrees_arithmetic (U : Universe) (op : Arithmetic) (u v : Value) :
    K.Agrees w K.Passes (arithmetic U op u v) (arithmetic U op u v) := by
  unfold arithmetic
  split
  · exact .plain rfl
  · refine Relates.seq (P := fun _ _ => True) ?_ fun _ _ _ _ => agrees_integer U _ _
    cases hres : intArithmetic op (u.asInt U) (v.asInt U) with
    | ok n => exact .result n
    | error c =>
      refine .fail ?_
      unfold intArithmetic at hres
      split at hres <;> first | cases hres | (split at hres <;> cases hres; rfl)
  · exact .fail rfl

theorem agrees_negate (U : Universe) (v : Value) : K.Agrees w K.Passes (negate U v) (negate U v) := by
  unfold negate
  split
  · exact .plain rfl
  · exact agrees_integer U _ _

theorem passes_convert (U : Universe) (p : Nat) (v : Value) : K.Passes w (convert U p v) := by
  unfold convert
  split <;> exact passes_plain rfl

end Machine

/-! ## Instructions -/

/-- The instruction names a slot or makes a closure, which finds variables in slots. -/
def Instruction.usesSlots : Instruction → Bool
  | loadLocal _ | storeLocal _ | makeCell _ | loadCell _ | storeCell _ | closure _ => true
  | _ => false

namespace Machine

abbrev Context.calling (ctx : Context) (call : Caller) (enter : Closure → List Value → Exec Value) : Context :=
  { ctx with call := call, enter := enter }

structure Context.Agrees (K : Correspondence) (ctx : Context) (call : Caller) : Prop where
  routines : ∀ r ∈ ctx.host.routines, K.Routines ctx.host.types ctx.call call r
  call : K.Callers ctx.call call

end Machine

/-- Closures are called in the same way. Delegates that belong together are the same, or functions in code. -/
structure Correspondence.Enters (K : Correspondence) (enter enter' : Closure → List Value → Exec Value) : Prop where
  same : ∀ {w : K.World} {d d' : Delegate}, K.Delegates w d d' →
    d' = d ∨ ∃ c c', d = .compiled c ∧ d' = .compiled c'
  enter : ∀ {w : K.World} {c c' : Closure} {args : List Value}, K.Delegates w (.compiled c) (.compiled c') →
    K.PassesAll w args → K.Agrees w K.Passes (enter c args) (enter' c' args)

/-- What an instruction needs besides slots: values that it pushes may be passed on. -/
def Instruction.Fits (K : Correspondence) (w : K.World) (enter enter' : Closure → List Value → Exec Value)
    (f : Frame) : Instruction → Prop
  | .push v => K.Passes w v
  | .loadFree n => ∀ v, f.closure.free[n]? = some v → K.Passes w v
  | .callDynamic m => K.Strict → m.isStatic = false
  -- the value that is returned is still on the stack
  | .ret => ¬ K.Strict
  | .invoke _ results => K.Enters enter enter' ∧ (K.Strict → results ≤ 1)
  | _ => True

/-- The instructions differ in slots only, and slots that they read hold the same. -/
inductive Instruction.Beside (K : Correspondence) (w : K.World) (enter enter' : Closure → List Value → Exec Value)
    (f g : Frame) : Instruction → Instruction → Prop
  | same {i : Instruction} (h : i.usesSlots = false) (hfits : i.Fits K w enter enter' f) :
    Beside K w enter enter' f g i i
  | loadLocal {a b : Nat} (h : g.locals[b]? = f.locals[a]?) (hv : ∀ v, f.locals[a]? = some v → K.Passes w v) :
    Beside K w enter enter' f g (.loadLocal a) (.loadLocal b)
  | storeLocal {a b : Nat} (h : b < g.locals.size ↔ a < f.locals.size) :
    Beside K w enter enter' f g (.storeLocal a) (.storeLocal b)
  | makeCell {a b : Nat} (h : g.locals[b]? = f.locals[a]?) (hv : ∀ v, f.locals[a]? = some v → K.Passes w v) :
    Beside K w enter enter' f g (.makeCell a) (.makeCell b)
  | loadCell {a b : Nat} (h : g.locals[b]? = f.locals[a]?) :
    Beside K w enter enter' f g (.loadCell a) (.loadCell b)
  | storeCell {a b : Nat} (h : g.locals[b]? = f.locals[a]?) :
    Beside K w enter enter' f g (.storeCell a) (.storeCell b)
  | closure {k : Nat} (h : K.Agrees w K.Passes (Machine.makeClosure f k) (Machine.makeClosure g k)) :
    Beside K w enter enter' f g (.closure k) (.closure k)

structure Frame.LevelWith (K : Correspondence) (w : K.World) (f g : Frame) (d a b : Nat) (v : Value) (f' g' : Frame) :
    Prop where
  first : a < f.locals.size
  second : b < g.locals.size
  level : Level K w { f with locals := f.locals.setIfInBounds a v } { g with locals := g.locals.setIfInBounds b v } d
    f' g'

/-- The frames after the instructions. Where a slot was stored to, both hold the stored value. -/
def Instruction.Afterwards (K : Correspondence) (w : K.World) (f g : Frame) (d : Nat) (i j : Instruction)
    (f' g' : Frame) : Prop :=
  match i, j with
  | .storeLocal a, .storeLocal b => ∃ v, K.Passes w v ∧ Frame.LevelWith K w f g d a b v f' g'
  | .makeCell a, .makeCell b => ∃ v, Frame.LevelWith K w f g d a b v f' g'
  | .jump ip, _ => Level K w { f with ip := ip } { g with ip := ip } d f' g'
  | .jumpIfFalse ip, _ => Level K w f g d f' g' ∨ Level K w { f with ip := ip } { g with ip := ip } d f' g'
  | _, _ => Level K w f g d f' g'

namespace Machine

variable {ctx : Context} {call' : Caller} {enter' : Closure → List Value → Exec Value} {f g a b : Frame} {d : Nat}
  {v : Value}

/-! ## Parts of instructions -/

theorem relates_push (h : Level K w f g d a b) {x y : Exec Value} (hx : K.Agrees w K.Passes x y) :
    K.Relates w (fun w => Level K w f g (d + 1)) (do return a.push (← x)) (do return b.push (← y)) :=
  hx.seq fun _ _ hw hv => ((h.later hw).push hv).pure

theorem relates_mapTop (h : Level K w f g (d + 1) a b) {k k' : Value → Exec Value}
    (hk : ∀ v, K.Passes w v → K.Agrees w K.Passes (k v) (k' v)) :
    K.Relates w (fun w => Level K w f g (d + 1)) (mapTop a k) (mapTop b k') :=
  h.pop fun v _ _ hv hm => relates_push hm (hk v hv)

theorem relates_mapTop2 (h : Level K w f g (d + 2) a b) {k k' : Value → Value → Exec Value}
    (hk : ∀ u v, K.Agrees w K.Passes (k u v) (k' u v)) :
    K.Relates w (fun w => Level K w f g (d + 1)) (mapTop2 a k) (mapTop2 b k') :=
  h.pop fun v _ _ _ hm => hm.pop fun u _ _ _ hm' => relates_push hm' (hk u v)

theorem agrees_loadThrough (v : Value) : K.Agrees w K.Passes (loadThrough v) (loadThrough v) :=
  .get_bind fun w' s t _ hst => (Relates.found v.cell?).seq fun _ loc hw _ => by
    rw [(K.twins hst).load]
    exact .value (K.passes_later hw ((K.holds hst).load (K.restricts w') loc))

theorem agrees_storeThrough (cell : Value) (hv : K.Passes w v) :
    K.Agrees w (fun _ _ => True) (storeThrough cell v) (storeThrough cell v) :=
  (Relates.found _).seq fun _ loc hw _ => .store loc (K.passes_later hw hv)

theorem agrees_fieldsOf (obj : Value) (index : Nat) :
    K.Agrees w (fun w vs => ∀ v ∈ vs, K.Passes w v) (fieldsOf obj index) (fieldsOf obj index) := by
  refine .ite (fun _ => .fail rfl) fun _ => .get_bind fun _ s t _ hst => ?_
  rw [(K.twins hst).fields, (K.twins hst).dynamicType]
  exact .ite (fun _ => .pure fun _ hw => ⟨rfl, fun v hv => K.passes_later hw ((K.holds hst).fields obj v hv)⟩)
    fun _ => .fail rfl

theorem agrees_elementOf (array index : Value) :
    K.Agrees w (fun w r => ∀ v ∈ r.1, K.Passes w v) (elementOf ctx array index)
      (elementOf (ctx.calling call' enter') array index) := by
  refine .ite (fun _ => .fail rfl) fun _ => .get_bind fun _ s t _ hst => ?_
  rw [(K.twins hst).items]
  refine (Relates.getSome (P := fun w items => ∀ v ∈ items, K.Passes w v) fun _ _ hw hi v hv =>
    K.passes_later hw ((K.holds hst).items hi v hv)).seq fun _ items _ hitems => ?_
  exact .ite (fun _ => .fail rfl) fun _ => .pure fun _ hw => ⟨rfl, fun v hv => K.passes_later hw (hitems v hv)⟩

theorem agrees_unbox (t : Option Ty) (v : Value) : K.Agrees w K.Passes (unbox t v) (unbox t v) := by
  refine .ite (fun _ => .fail rfl) fun _ => .get_bind fun _ s s' _ hst => ?_
  rw [(K.twins hst).payload, (K.twins hst).dynamicType]
  cases hp : s.payload? v with
  | none => exact .fail rfl
  | some p => exact .ite (fun _ => .value ((K.holds hst).payload hp)) fun _ => .fail rfl

theorem agrees_newArray (elem : Option Ty) (length : Value) :
    K.Agrees w K.Passes (newArray ctx elem length) (newArray (ctx.calling call' enter') elem length) :=
  .ite (fun _ => .fail rfl) fun _ => (Relates.found elem).seq fun _ t _ _ => .newArray _ t _

theorem agrees_arrayLength (array : Value) : K.Agrees w K.Passes (arrayLength array) (arrayLength array) := by
  refine .ite (fun _ => .fail rfl) fun _ => .get_bind fun _ s t _ hst => ?_
  rw [(K.twins hst).items]
  exact (Relates.found _).seq fun _ _ _ _ => .plain rfl

/-! ## Calls -/

section Calls

variable (hctx : ctx.Agrees K call')
include hctx

theorem relates_callMethod (m impl : Method) (h : Level K w f g (d + (ofCall m).pop) a b) :
    K.Relates w (fun w => Level K w f g (d + (ofCall m).push)) (callMethod ctx a m impl)
      (callMethod (ctx.calling call' enter') b m impl) := by
  have hsplit : d + (ofCall m).pop = d + (if m.isStatic then 0 else 1) + m.params.length := by
    simp only [ofCall]
    omega
  rw [hsplit] at h
  refine h.popN fun args a b hargs hm => ?_
  -- the receiver is taken from the stack, and out of its box
  have hreceiver : K.Relates w (fun w p q => q.1 = p.1 ∧ K.Passes w p.1 ∧ Level K w f g d p.2 q.2)
      (callMethod.receiver ctx m impl a) (callMethod.receiver (ctx.calling call' enter') m impl b) := by
    unfold callMethod.receiver
    by_cases hstatic : m.isStatic = true
    · rw [if_pos hstatic] at hm
      rw [if_pos hstatic, if_pos hstatic]
      exact .pure fun _ hw => ⟨rfl, passes_plain rfl, hm.later hw⟩
    · rw [if_neg hstatic] at hm
      rw [if_neg hstatic, if_neg hstatic]
      refine hm.pop fun self a b hself hm' => .ite (fun _ => .fail rfl) fun _ => .ite (fun _ => ?_) fun _ =>
        .pure fun _ hw => ⟨rfl, K.passes_later hw hself, hm'.later hw⟩
      exact (Relates.unboxed hself).seq fun _ _ hw hv =>
        .pure fun _ hw' => ⟨rfl, K.passes_later hw' hv, hm'.later (K.trans hw hw')⟩
  refine hreceiver.bind fun w₁ p q h₁ hpq => ?_
  obtain ⟨self, a⟩ := p
  obtain ⟨self', b⟩ := q
  obtain ⟨rfl, hself, hm'⟩ := hpq
  refine ((Correspondence.agrees_invoke hctx.routines impl hself (hargs.later h₁)).mapError (.inMethod impl)
    fun _ => rfl).seq fun _ r h₂ hr => ?_
  unfold ofCall
  by_cases hresult : m.result.isSome = true
  · simp only [hresult, if_true]
    exact relates_push (hm'.later h₂) (.clone hr)
  · simp only [hresult, if_false, Bool.false_eq_true]
    exact (hm'.later h₂).pure

theorem relates_callDynamic (m : Method) (hm : K.Strict → m.isStatic = false)
    (h : Level K w f g (d + (ofCall m).pop) a b) :
    K.Relates w (fun w => Level K w f g (d + (ofCall m).push)) (callDynamic ctx a m)
      (callDynamic (ctx.calling call' enter') b m) := by
  have hdeep : K.Strict → m.params.length < d + (ofCall m).pop := fun hs => by
    simp only [ofCall, hm hs, Bool.false_eq_true, if_false]
    omega
  refine (h.peek hdeep).seq fun _ self h₁ _ => .ite (fun _ => .fail rfl) fun _ => ?_
  refine (Relates.dynamicType self).seq fun _ t h₂ _ => (Relates.found _).seq fun _ impl h₃ _ => ?_
  cases impl with
  | none => exact .fail rfl
  | some impl => exact relates_callMethod hctx m impl (h.later (K.trans (K.trans h₁ h₂) h₃))

/-- **Calling a delegate.** It is a related one in the other store. -/
theorem relates_invoke (henter : K.Enters ctx.enter enter') (args results : Nat) (hone : K.Strict → results ≤ 1)
    (h : Level K w f g (d + (args + 1)) a b) :
    K.Relates w (fun w => Level K w f g (d + results)) (invoke ctx a args results)
      (invoke (ctx.calling call' enter') b args results) := by
  rw [show d + (args + 1) = d + 1 + args by omega] at h
  refine h.popN fun values a b hvalues hm => hm.pop fun fn a b _ hm => ?_
  refine .ite (fun _ => .fail rfl) fun _ => .get_bind fun w₁ s t h₁ hst => ?_
  rw [(K.twins hst).dynamicType]
  have hvalues := hvalues.later h₁
  have hend : ∀ {w₂ : K.World} {x y : Exec Value}, K.Later w w₂ → K.Agrees w₂ K.Passes x y →
      K.Relates w₂ (fun w => Level K w f g (d + results)) (do
        let r ← x
        if 0 < results then pure (a.push r) else pure a) (do
        let r ← y
        if 0 < results then pure (b.push r) else pure b) := by
    intro w₂ x y hw hx
    refine hx.seq fun w₃ r h₃ hr => ?_
    have hm := hm.later (K.trans hw h₃)
    refine .ite (fun hpos => ((hm.push hr).resize fun hs => ?_).pure) fun hnone => (hm.resize fun _ => ?_).pure
    · have := hone hs
      omega
    · omega
  have hdelegates := K.delegate fn hst
  generalize s.delegate? fn = o at hdelegates
  generalize t.delegate? fn = o' at hdelegates
  cases hdelegates with
  | none => exact hend h₁ (.fail rfl)
  | @some d d' hdd =>
    rcases henter.same hdd with rfl | ⟨c, c', rfl, rfl⟩
    · cases d' with
      | compiled c => exact hend h₁ (henter.enter hdd hvalues)
      | evaluated l name env maxDepth | host name routine =>
        exact (hctx.call hdd hvalues).seq fun _ v hw hv => hend (K.trans h₁ hw) (.clone hv)
    · exact hend h₁ (henter.enter hdd hvalues)

end Calls

/-! ## Whole instructions -/

theorem relates_uniform (hctx : ctx.Agrees K call') (hfree : g.closure.free = f.closure.free) {i : Instruction}
    (h : Level K w f g (d + i.effect.pop) f g) (hi : i.usesSlots = false) (hfits : i.Fits K w ctx.enter enter' f) :
    K.Relates w (fun w => i.Afterwards K w f g (d + i.effect.push) i) (execute ctx f i)
      (execute (ctx.calling call' enter') g i) := by
  have hfree? : ∀ n, K.Agrees w (fun _ v => f.closure.free[n]? = some v) (f.free? n) (g.free? n) := by
    intro n
    unfold Frame.free?
    rw [hfree]
    exact .getSome fun _ _ _ hv => hv
  cases i with
  | nop | retVoid => exact h.pure
  | ret => exact (h.resize fun hs => (hfits hs).elim).pure
  | pop => exact h.pop fun _ _ _ _ hm => hm.pure
  | push v => exact (h.push hfits).pure
  | dup => exact relates_push h (h.peek fun _ => Nat.succ_pos d)
  | dupX1 => exact h.pop fun v _ _ hv hm => hm.pop fun u _ _ hu hm => (((hm.push hv).push hu).push hv).pure
  | dupX2 =>
    exact h.pop fun v _ _ hv hm => hm.pop fun u _ _ hu hm => hm.pop fun r _ _ hr hm =>
      ((((hm.push hv).push hr).push hu).push hv).pure
  | loadFree n => exact (hfree? n).seq fun _ v hw hv => ((h.later hw).push (K.passes_later hw (hfits v hv))).pure
  | loadFreeCell n => exact (hfree? n).seq fun _ v hw _ => relates_push (h.later hw) (agrees_loadThrough v)
  | storeFreeCell n =>
    exact (hfree? n).seq fun _ cell hw _ => (h.later hw).pop fun v _ _ hv hm =>
      (agrees_storeThrough cell hv).seq fun _ _ hw' _ => (hm.later hw').pure
  | loadHost cell =>
    refine .get_bind fun w' s t hw hst => ?_
    rw [(K.twins hst).load]
    exact ((h.later hw).push ((K.holds hst).load (K.restricts w') cell)).pure
  | storeHost cell =>
    exact h.pop fun v _ _ hv hm => (Relates.store cell hv).seq fun _ _ hw _ => (hm.later hw).pure
  | copy => exact relates_mapTop h fun v hv => .clone hv
  | box => exact relates_mapTop h fun v hv => .wrap hv
  | unbox t => exact relates_mapTop h fun v _ => agrees_unbox t v
  | retag t =>
    unfold execute
    exact relates_mapTop h fun v hv => .value (K.retype hv)
  | convert p =>
    unfold execute
    exact relates_mapTop h fun v _ => .value (passes_convert _ p v)
  | not =>
    unfold execute
    exact relates_mapTop h fun v _ => .plain rfl
  | neg => exact relates_mapTop h fun v _ => agrees_negate _ v
  | newArray elem => exact relates_mapTop h fun v _ => agrees_newArray elem v
  | arrayLength => exact relates_mapTop h fun v _ => agrees_arrayLength v
  | arithmetic op => exact relates_mapTop2 h fun u v => agrees_arithmetic _ op u v
  | concat | sameRef | compare =>
    unfold execute
    exact relates_mapTop2 h fun u v => .plain rfl
  | equal positive =>
    unfold execute
    exact relates_mapTop2 h fun u v => (Relates.equal u v).seq fun _ _ _ _ => .plain rfl
  | newAggregate t =>
    exact (Relates.found t).seq fun _ u hw _ => relates_push (h.later hw) (.newAggregate _ u)
  | newObject t => exact relates_push h (.newObject _ t)
  | getField n =>
    exact h.pop fun obj _ _ _ hm => (agrees_fieldsOf obj n).seq fun w' _ hw hvs =>
      ((hm.later hw).push (Store.forall_getD hvs (K.restricts w') n)).pure
  | setField n =>
    exact h.pop fun v _ _ hv hm => hm.pop fun obj _ _ _ hm => (agrees_fieldsOf obj n).seq fun _ _ hw _ =>
      (Relates.setField obj n (K.passes_later hw hv)).seq fun _ _ hw' _ => (hm.later (K.trans hw hw')).pure
  | call m => exact relates_callMethod hctx m m h
  | callDynamic m => exact relates_callDynamic hctx m hfits h
  | invoke args results => exact relates_invoke hctx hfits.1 args results hfits.2 h
  | cast t =>
    exact (h.peek fun _ => Nat.succ_pos d).seq fun _ v hw _ => (Relates.checkReference _ v t).seq fun _ _ hw' _ =>
      (h.later (K.trans hw hw')).pure
  | arrayOf elem count =>
    exact h.popN fun items _ _ hitems hm => (Relates.found elem).seq fun _ t hw _ => relates_push (hm.later hw)
      (.newArrayOf t fun v hv => K.passes_later hw (hitems v (List.mem_toArray.1 hv)))
  | getElem =>
    exact h.pop fun index _ _ _ hm => hm.pop fun array _ _ _ hm => (agrees_elementOf array index).seq
      fun w' r hw hvs => ((hm.later hw).push (Store.forall_getD hvs (K.restricts w') r.2)).pure
  | setElem =>
    exact h.pop fun v _ _ hv hm => hm.pop fun index _ _ _ hm => hm.pop fun array _ _ _ hm =>
      (agrees_elementOf array index).seq fun _ r hw _ =>
        (Relates.setItem array r.2 (K.passes_later hw hv)).seq fun _ _ hw' _ => (hm.later (K.trans hw hw')).pure
  | jump target => exact (h.jump target).pure
  | jumpIfFalse target =>
    exact h.pop fun v _ _ _ hm => .ite (fun _ => .pure fun _ hw => .inl (hm.later hw)) fun _ =>
      .pure fun _ hw => .inr ((hm.jump target).later hw)
  | loadLocal | storeLocal | makeCell | loadCell | storeCell | closure => cases hi

theorem agrees_local {slot slot' : Nat} (h : g.locals[slot']? = f.locals[slot]?) :
    K.Agrees w (fun _ v => f.locals[slot]? = some v) (f.local? slot) (g.local? slot') := by
  unfold Frame.local?
  rw [h]
  exact .getSome fun _ _ _ hv => hv

theorem relates_setLocal {slot slot' : Nat} (hsize : slot' < g.locals.size ↔ slot < f.locals.size)
    (h : Level K w f g d a b) (v : Value) :
    K.Relates w (fun w => Frame.LevelWith K w f g d slot slot' v) (a.setLocal slot v) (b.setLocal slot' v) := by
  obtain ⟨⟨stack⟩, hpasses, hcount⟩ := h
  unfold Frame.setLocal
  simp only [hsize]
  exact .ite (fun hslot => .pure fun _ hw => ⟨hslot, hsize.2 hslot, ⟨stack⟩,
    fun u hu => K.passes_later hw (hpasses u hu), hcount⟩) fun _ => .corrupt

theorem relates_execute (hctx : ctx.Agrees K call') (hfree : g.closure.free = f.closure.free) {i j : Instruction}
    (h : Level K w f g (d + i.effect.pop) f g) (hij : i.Beside K w ctx.enter enter' f g j) :
    K.Relates w (fun w => i.Afterwards K w f g (d + i.effect.push) j) (execute ctx f i)
      (execute (ctx.calling call' enter') g j) := by
  cases hij with
  | same hi hfits => exact relates_uniform hctx hfree h hi hfits
  | loadLocal hread hpasses =>
    exact (agrees_local hread).seq fun _ v hw hv => ((h.later hw).push (K.passes_later hw (hpasses v hv))).pure
  | loadCell hread => exact (agrees_local hread).seq fun _ v hw _ => relates_push (h.later hw) (agrees_loadThrough v)
  | storeCell hread =>
    exact (agrees_local hread).seq fun _ cell hw _ => (h.later hw).pop fun v _ _ hv hm =>
      (agrees_storeThrough cell hv).seq fun _ _ hw' _ => (hm.later hw').pure
  | closure hclosure => exact relates_push h hclosure
  | storeLocal hsize =>
    exact h.pop fun v _ _ hv hm => (relates_setLocal hsize hm v).imp fun _ _ _ hw hlevel =>
      ⟨v, K.passes_later hw hv, hlevel⟩
  | @makeCell slot slot' hread hpasses =>
    have hsize : slot' < g.locals.size ↔ slot < f.locals.size := by
      have hnone : g.locals[slot']? = none ↔ f.locals[slot]? = none := by rw [hread]
      rw [Array.getElem?_eq_none_iff, Array.getElem?_eq_none_iff] at hnone
      omega
    refine (agrees_local hread).seq fun _ v hw hv => ?_
    refine (Relates.newCell _ _ (K.passes_later hw (hpasses v hv))).seq fun _ loc hw' _ => ?_
    exact (relates_setLocal hsize (h.later (K.trans hw hw')) _).imp fun _ _ _ _ hlevel => ⟨_, hlevel⟩

end Machine

theorem Artifact.agrees_arguments (U : Universe) (i : Nat) {args : List Value} (ts : List (Option Ty))
    (hargs : K.PassesAll w args) : K.Agrees w K.PassesAll (arguments U i args ts) (arguments U i args ts) := by
  have hnone : ∀ w, K.Agrees w K.PassesAll (pure []) (pure []) := fun _ => .pure fun _ _ => ⟨rfl, List.forall_mem_nil _⟩
  induction args generalizing i ts w with
  | nil => exact hnone w
  | cons v vs ih =>
    cases ts with
    | nil => exact hnone w
    | cons t ts =>
      obtain ⟨hv, hvs⟩ := List.forall_mem_cons.1 hargs
      have hcopy : K.Agrees w K.Passes (do Exec.check U v t; Exec.clone v) (do Exec.check U v t; Exec.clone v) :=
        (Relates.check U v t).seq fun _ _ hw _ => .clone (K.passes_later hw hv)
      refine (hcopy.mapError (.atArgument i) fun _ => rfl).seq fun _ x hw hx => ?_
      refine (ih (i + 1) ts (Correspondence.PassesAll.later hvs hw)).seq fun _ xs hw' hxs =>
        .pure fun _ hw'' => ⟨rfl, ?_⟩
      exact List.forall_mem_cons.2 ⟨K.passes_later (K.trans hw' hw'') hx, Correspondence.PassesAll.later hxs hw''⟩

end TreeMachine
