import TreeMachine.Proofs.Codegen.Scopes

/-!
# Code of functions

A function starts without code, with a slot for each parameter and with its captured variables in
scope. Parameters that closures share move to cells, the others are converted where the function is
called with other types than its own. The return is the last instruction, so that nothing is left to
claim about what runs after the code: the invariant of the compilation has become a certificate.

* **`runs_function`** proves it of `function`, and `yields_lambdaCode` uses it for closures, whose
  captures are found in the scope where they are made. `Opens` is what has to hold of that scope where
  faults count.
-/

open List

namespace TreeMachine.Codegen

variable {ctx : Context} {r : Bool} {strict : Prop} {kind : Kind} {s s' : CodegenState} {u : Unit} {caps : List Bool}
  {opened : List OpenJump} {known : SlotFacts} {enclosing : Option Bindings} {k : Capture} {i lambda : Nat}
  {ns : List Nat} {ks : List Capture} {v : Var} {t : Ty} {vs : List Var} {ts : List (Option Ty)} {op : Opcode}
  {body : Codegen Unit} {f : Function} {slots : Slots} {name : String} {env : Bindings} {l : Lambda}
  {base before after : List StackEntry} {e : StackEntry}

/-! ## Captured variables -/

def shared (ctx : Context) (n : Nat) : Bool :=
  decide ((ctx.captures.vars.getD n default).mode = .byReference)

structure CapturedFrom (enclosing : Option Bindings) (k : Capture) : Prop where
  bound : ∃ env id b, enclosing = some env ∧ (id, b) ∈ env ∧ k.source = b.place.source ∧
    k.index = b.index ∧ k.byRef = b.place.isCell

def Enclosed (ctx : Context) (enclosing : Option Bindings) (n : Nat) : Prop :=
  ∃ env b, enclosing = some env ∧ env.lookup (ctx.captures.vars.getD n default).var.id = some b ∧
    b.number = some n

def freeBinding (ctx : Context) (i n : Nat) : Nat × Binding :=
  ((ctx.captures.vars.getD n default).var.id, ⟨if shared ctx n then .freeCell else .free, i, some n⟩)

def CellAgrees (ctx : Context) (enclosing : Option Bindings) (n : Nat) : Prop :=
  ∃ env, enclosing = some env ∧ ∀ b, env.lookup (ctx.captures.vars.getD n default).var.id = some b →
    b.number = some n → b.place.isCell = shared ctx n

theorem runs_captureFrom {n : Nat} (hn : strict → CellAgrees ctx enclosing n) :
    Runs strict (captureFrom ctx enclosing n) s fun k s' =>
      s' = s ∧ k.byRef = shared ctx n ∧ CapturedFrom enclosing k ∧ Enclosed ctx enclosing n := by
  cases enclosing with
  | none =>
    intro hstrict
    obtain ⟨env, henv, -⟩ := hn hstrict
    cases henv
  | some env =>
    unfold captureFrom
    dsimp only
    split
    · exact .decline
    · rename_i b hb
      refine .ite (fun _ => .decline) fun hnumber => .ite (fun hcell hstrict => ?_) fun hcell => .pure ?_
      · obtain ⟨env', heq, hagrees⟩ := hn hstrict
        cases heq
        rw [hagrees b hb (not_not.1 hnumber), shared] at hcell
        simp at hcell
      · refine ⟨rfl, rfl, ⟨env, _, b, rfl, mem_of_lookup hb, rfl, rfl, ?_⟩, env, b, rfl, hb, not_not.1 hnumber⟩
        simpa using hcell

theorem runs_bindCaptures (hns : strict → ∀ n ∈ ns, CellAgrees ctx enclosing n) :
    Runs strict (bindCaptures ctx enclosing i ns) s fun ks s' =>
      ∃ env, s' = { s with function := { s.function with env := env } } ∧
        (∀ x ∈ env, x ∈ s.function.env ∨ ∃ (j n : Nat), ns[j]? = some n ∧ x = freeBinding ctx (i + j) n) ∧
        List.Forall₂ (fun n k => k.byRef = shared ctx n ∧ CapturedFrom enclosing k) ns ks ∧
        ∀ n ∈ ns, Enclosed ctx enclosing n := by
  induction ns generalizing i s with
  | nil => exact .pure ⟨_, rfl, fun x hx => .inl hx, .nil, nofun⟩
  | cons n ns ih =>
    refine .ite (fun _ => .decline) fun _ => .modify_bind ?_
    refine .bind (runs_captureFrom fun h => hns h n mem_cons_self) fun {k s₂} ⟨hs₂, hshared, hfrom, henclosed⟩ => ?_
    subst hs₂
    refine .bind (ih fun h m hm => hns h m (mem_cons_of_mem _ hm)) fun {ks s₃} hrest => .pure ?_
    obtain ⟨env, rfl, henv, hks, hall⟩ := hrest
    refine ⟨env, rfl, fun x hx => ?_, .cons ⟨hshared, hfrom⟩ hks, forall_mem_cons.2 ⟨henclosed, hall⟩⟩
    rcases henv x hx with hx | ⟨j, m, hj, hm⟩
    · rcases mem_cons.1 hx with rfl | hx
      · refine .inr ⟨0, n, rfl, ?_⟩
        simp only [freeBinding, shared, decide_eq_true_eq, Nat.add_zero]
      · exact .inl hx
    · exact .inr ⟨j + 1, m, hj, by rw [hm, Nat.add_assoc, Nat.add_comm 1 j]⟩

/-! ## Parameters -/

/-- The way of capture of the slot that a parameter is passed in. A parameter that has to be converted
is captured from another slot. -/
def paramMode (ctx : Context) (lambda : Nat) (v : Var) (t : Option Ty) : CaptureMode :=
  match ctx.captures.number? lambda v with
  | some i => if t = some v.type then ctx.captures.mode i else .none
  | none => .none

theorem paramMode_of_eq : paramMode ctx lambda v (some v.type) = modeOf ctx (ctx.captures.number? lambda v) := by
  unfold paramMode modeOf
  cases ctx.captures.number? lambda v with
  | none => rfl
  | some i => simp

theorem paramMode_of_ne {t : Option Ty} (h : ¬t = some v.type) : paramMode ctx lambda v t = .none := by
  unfold paramMode
  cases ctx.captures.number? lambda v with
  | none => rfl
  | some i => simp [h]

theorem runs_allocateParams (hok : s.function.slots.Ok) (houter : s.function.slots.outer = 0)
    (hlive : ∀ {j : Nat} {sl : Slot}, s.function.slots.slots[j]? = some sl → sl.live = true) :
    Runs strict (allocateParams ctx lambda vs ts) s fun _ s' =>
      ∃ b, s' = { s with function := { s.function with slots := b } } ∧ b.Ok ∧ b.outer = 0 ∧
        (∀ {j : Nat} {sl : Slot}, b.slots[j]? = some sl → sl.live = true) ∧
        (∀ {j : Nat} {sl : Slot}, s.function.slots.slots[j]? = some sl → b.slots[j]? = some sl) ∧
        ∀ {k : Nat} {v : Var} {t : Option Ty}, vs[k]? = some v → ts[k]? = some t →
          b.slots[s.function.slots.slots.size + k]? = some ⟨t, paramMode ctx lambda v t, 0, true⟩ := by
  induction vs generalizing ts s with
  | nil => exact .pure ⟨_, rfl, hok, houter, hlive, id, fun hv => by simp at hv⟩
  | cons v vs ih =>
    cases ts with
    | nil => exact .pure ⟨_, rfl, hok, houter, hlive, id, fun _ ht => by simp at ht⟩
    | cons t ts =>
      refine .bind (runs_allocate (by simp [Slots.isOpen, houter])) fun {i s₁} ⟨b, hb, hs₁⟩ => ?_
      subst hs₁
      obtain ⟨hsize, hlive'⟩ := hb.all_live hlive
      obtain rfl := hb.eq_size hlive
      refine .imp (ih (hok.allocated hb) (hb.outer.trans houter) hlive') fun {_ s₂} hrest => ?_
      obtain ⟨c, rfl, hc, houter', hlivec, hold, hnew⟩ := hrest
      refine ⟨c, rfl, hc, houter', hlivec, fun hs => hold (hb.live hs (hlive hs)), fun {k v' t'} hv ht => ?_⟩
      cases k with
      | zero =>
        cases hv
        cases ht
        exact hold hb.slot
      | succ k =>
        have := hnew hv ht
        rw [hsize] at this
        rw [← this]
        congr 1
        omega

def HasParam (ctx : Context) (lambda : Nat) (slots : Slots) (i : Nat) (v : Var) (t : Option Ty) : Prop :=
  ∃ sl, slots.slots[i]? = some sl ∧ sl.live = true ∧ sl.capture = paramMode ctx lambda v t

/-- **The prologue** of a function brings all parameters into scope, if those that closures share are
plain values at first. -/
theorem runs_prologue (hlen : ts.length = vs.length) (hok : s.function.slots.Ok) (houter : s.function.slots.outer = 0)
    (hparams : ∀ {k : Nat} {v : Var} {t : Option Ty}, vs[k]? = some v → ts[k]? = some t →
      HasParam ctx lambda s.function.slots (i + k) v t) : Runs strict (prologue ctx lambda i vs ts) s fun _ s' =>
      s'.function.slots.Ok ∧ Array.Grows s'.functions s.functions ∧ entries s' = entries s ∧
      Binds ctx lambda vs s.function.env s'.function.env ∧ ∀ {caps opened known}, Good r caps opened known true s →
        (∀ {k : Nat} {v : Var} {t : Option Ty}, vs[k]? = some v → ts[k]? = some t →
          paramMode ctx lambda v t = .byReference → (i + k, false) ∈ known) →
        ∃ known', Good r caps opened known' true s' := by
  induction vs generalizing ts s i with
  | nil => exact .pure ⟨hok, .refl _, rfl, .nil, fun hg _ => ⟨_, hg⟩⟩
  | cons v vs ih =>
    cases ts with
    | nil => cases hlen
    | cons t ts =>
      have hlen' : ts.length = vs.length := Nat.succ.inj hlen
      obtain ⟨sl, hs, hl, hc⟩ := hparams (k := 0) rfl rfl
      have hnext : ∀ k, i + 1 + k = i + (k + 1) := fun k => by omega
      refine .ite (fun hsame => ?_) fun hne => ?_
      · -- the parameter is visible in the slot it is passed in
        subst hsame
        rw [paramMode_of_eq] at hc
        refine .bind (runs_bindVariable (r := r) hs hl hc) fun {_ s₁} ⟨hbound, hgood⟩ => ?_
        refine .imp (ih hlen' (hbound.slots ▸ hok) (hbound.slots ▸ houter) fun {k v' t'} hv ht => ?_)
          fun {_ s₂} ⟨hok', hfun, hent, hbinds, hfinal⟩ => ?_
        · rw [hbound.slots, hnext k]
          exact hparams (k := k + 1) hv ht
        · rw [hbound.env] at hbinds
          refine ⟨hok', hbound.functions ▸ hfun, hent.trans hbound.entries, .cons hbinds, fun hg hplain => ?_⟩
          obtain ⟨known', hsub, hg'⟩ := hgood hg fun hm => hplain (k := 0) rfl rfl (paramMode_of_eq.trans hm)
          refine hfinal hg' fun {k v' t'} hv ht hm => hsub _ ?_ (by simp; omega)
          rw [hnext k]
          exact hplain (k := k + 1) hv ht hm
      · -- the parameter is converted and visible in another slot
        refine .plan fun {plan} hmade hsource htarget => ?_
        obtain ⟨source, hsource'⟩ := hmade.source_eq_some htarget
        obtain rfl : t = some source := hsource.symm.trans hsource'
        rw [paramMode_of_ne hne] at hc
        refine .needType (.bind (runs_loadLocal (r := r) (e := aliased source) hok ⟨sl, hs, hl, by rw [hc]; simp⟩)
          fun {_ s₁} hload => ?_)
        refine .bind (runs_deliver (r := r) hmade hload.ok hload.top hsource'.symm hsource') fun {_ s₂}
          ⟨a, hdeliver⟩ => ?_
        have hvalue := hload.trans hdeliver
        refine .bind (runs_allocate (by simp [Slots.isOpen, hvalue.slots.outer, houter])) fun {slot s₃}
          ⟨b, hb, hs₃⟩ => ?_
        subst hs₃
        have hb' := hvalue.ok.allocated hb
        refine .assoc (.bind (runs_storeAndBind (r := r) hvalue.top hb.slot rfl rfl) fun {_ s₄} hbound => ?_)
        obtain ⟨henv, hslots, hfunctions, hentries, hgood⟩ := hbound
        refine .imp (ih hlen' (hslots ▸ hb') ?_ fun {k v' t'} hv ht => ?_) fun {_ s₅}
          ⟨hok', hfun, hent, hbinds, hfinal⟩ => ?_
        · rw [hslots, hb.outer, hvalue.slots.outer, houter]
        · obtain ⟨sl', hs', hl', hc'⟩ := hparams (k := k + 1) hv ht
          rw [hslots, hnext k]
          exact ⟨sl', hb.live ((hvalue.slots.live hl').2 hs') hl', hl', hc'⟩
        · rw [henv, hvalue.env] at hbinds
          refine ⟨hok', hfun.trans (hfunctions ▸ hvalue.functions), hent.trans hentries, .cons hbinds,
            fun hg hplain => ?_⟩
          have hg₂ := hvalue.good hg
          have hg₃ := hg₂.slots hb.kept hb' fun hl hs => hb.live hs hl
          obtain ⟨known', hsub, hg₅⟩ := hgood hg₃ (hg₂.ne_of_allocated hb)
          refine hfinal hg₅ fun {k v' t'} hv ht hm => hsub ?_
          rw [hnext k]
          exact hplain (k := k + 1) hv ht hm

/-! ## The return -/

structure Ended (r : Bool) (caps : List Bool) (s : CodegenState) : Prop where
  image : Image.Certified s.functions
  depths : ∀ f ∈ s.functions, f.chunk.depths.isSome = r
  sound : ∃ known G, Sound r caps [] known false s.functions s.function G ∧
    ∃ o p, G o = some p ∧ (p.op = .ret ∨ p.op = .retVoid) ∧
      o + p.op.size = s.function.chunk.code.size

theorem Good.ended (hg : Good r caps [] known true s) (hop : op = .ret ∨ op = .retVoid)
    (h : Codegen.emit kind op [] [] s = .ok u s') : Ended r caps s' := by
  obtain ⟨e, he⟩ := emit_eq_ok h
  obtain ⟨G, hG⟩ := hg.sound
  have hvalid : (nextPoint s.function known op [] e).Valid s.functions s.function.chunk.constants
      s.function.slots.mode caps := by
    rcases hop with rfl | rfl <;> trivial
  have hjump : (nextPoint s.function known op [] e).jumps = false := by
    rcases hop with rfl | rfl <;> rfl
  have hfalls : (nextPoint s.function known op [] e).falls = false := by
    rcases hop with rfl | rfl <;> rfl
  have hfacts : (nextPoint s.function known op [] e).factsAfter = known := by
    rcases hop with rfl | rfl <;> rfl
  have hnew : Sound r caps [] known _ _ _ _ := hG.emit he.length he.effect he.push he.fits he.pop hvalid
    (by rw [hjump]; rfl) (by rw [hfacts]; exact List.Subset.refl _) hG.known hG.env
  rw [hfalls] at hnew
  rw [he.eq]
  refine ⟨hg.image, hg.depths, known, _, hnew, _, _, putPoint_self _ _ _, hop, ?_⟩
  exact (size_writeInstruction he.length _ _ _).symm

structure Returned (r : Bool) (s s' : CodegenState) : Prop where
  entries : Codegen.entries s' = []
  functions : Array.Grows s'.functions s.functions
  ended : ∀ {caps known}, Good r caps [] known true s → Ended r caps s'

theorem Turned.returned {s'' : CodegenState} (h : Turned r before after s s') (h' : Returned r s' s'') :
    Returned r s s'' :=
  ⟨h'.entries, h'.functions.trans h.functions, fun hg => h'.ended (h.good hg)⟩

theorem runs_return (hop : op = .ret ∧ before = [e] ∨ op = .retVoid ∧ before = []) (hb : entries s = [] ++ before) :
    Runs strict (emit .lambda op [] []) s fun _ s' => Returned r s s' := by
  have hop' : op = .ret ∨ op = .retVoid := hop.imp And.left And.left
  have heff : Effect.of op [] s.function.chunk.constants = .ok ⟨before.length, 0⟩ := by
    rcases hop with ⟨rfl, rfl⟩ | ⟨rfl, rfl⟩ <;> rfl
  refine .intro (fun h => ?_) fun _ => declines_emit hb ?_ heff
  · obtain ⟨eff, he⟩ := emit_eq_ok h
    have hpop : before.length = eff.pop := by
      rw [← Except.ok.inj (heff.symm.trans he.effect)]
    exact ⟨he.entries hb hpop, by rw [he.eq]; exact .refl _, fun hg => hg.ended hop' h⟩
  · rcases hop' with rfl | rfl <;> rfl

theorem runs_coerce {t' : Ty} {a : Bool} (hok : s.function.slots.Ok) (hb : entries s = base ++ [⟨some t', a⟩]) :
    Runs strict (coerce ctx t) s fun _ s' => ∃ a', Turned r [⟨some t', a⟩] [⟨some t, a'⟩] s s' :=
  .peekTop hb (.plan fun hmade hsource htarget => htarget ▸ runs_convert hmade hok hb hsource.symm hsource)

theorem runs_returnVoid {hasValue : Bool} (hok : s.function.slots.Ok) (hb : entries s = [] ++ before)
    (hlen : before.length = if hasValue then 1 else 0) :
    Runs strict (returnVoid hasValue) s fun _ s' => Returned r s s' := by
  cases hasValue with
  | false =>
    obtain rfl := length_eq_zero_iff.1 hlen
    exact runs_return (e := default) (.inr ⟨rfl, rfl⟩) hb
  | true =>
    obtain ⟨e, rfl⟩ := length_eq_one_iff.1 hlen
    refine .bind (runs_plain (r := r) hok hb rfl rfl rfl) fun hpop => ?_
    exact .imp (runs_return (e := default) (.inr ⟨rfl, rfl⟩) (hpop.entries [] hb)) hpop.returned

theorem runs_epilogue {body own result : Option Ty} {es : List StackEntry} (hok : s.function.slots.Ok)
    (hes : EntriesOf body es) (hb : entries s = [] ++ es) (hown : own.isSome = true → ∃ t, body = some t) :
    Runs strict (epilogue ctx body own result) s fun _ s' => Returned r s s' := by
  cases own with
  | none =>
    cases result with
    | some t => exact .decline
    | none =>
      refine runs_returnVoid hok hb ?_
      cases body with
      | none => rw [show es = [] from hes]; rfl
      | some t =>
        obtain ⟨a, rfl⟩ := hes
        rfl
  | some t₁ =>
    obtain ⟨t, rfl⟩ := hown rfl
    obtain ⟨a, rfl⟩ := hes
    have hcoerce : Runs strict (coerce ctx t₁) s fun _ s' => ∃ a', Turned r [⟨some t, a⟩] [⟨some t₁, a'⟩] s s' :=
      runs_coerce hok hb
    cases result with
    | none =>
      refine .bind hcoerce fun ⟨a₁, h₁⟩ => ?_
      exact .imp (runs_returnVoid h₁.ok (h₁.entries [] hb) rfl) h₁.returned
    | some t₂ =>
      refine .bind hcoerce fun ⟨a₁, h₁⟩ => .bind (runs_coerce (r := r) h₁.ok (h₁.entries [] hb)) fun ⟨a₂, h₂⟩ => ?_
      refine .bind (runs_own (r := r) h₂.ok (h₂.entries [] (h₁.entries [] hb))) fun ⟨a₃, h₃⟩ => ?_
      have hall := h₁.trans (h₂.trans h₃)
      exact .imp (runs_return (.inl ⟨rfl, rfl⟩) (hall.entries [] hb)) hall.returned

/-- Nothing is left to claim behind a return: the invariant is a certificate. -/
theorem Ended.certified (h : Ended r caps s) (hchunk : f.chunk = s.function.chunk)
    (hlocals : f.locals = s.function.slots.count) (hmax : f.maxStack = s.function.stack.max)
    (hcaps : f.captures.map (·.byRef) = caps) : ∃ mode G, f.Certified s.functions mode G := by
  obtain ⟨known, G, hG, o, p, hp, hop, hend⟩ := h.sound
  have harrive : ∀ {o d facts}, Arrives known false s.function G o d facts → Lands G o d facts := by
    intro o d facts ha
    exact ha.resolve_right fun ⟨h, _⟩ => nomatch h
  refine ⟨s.function.slots.mode, G, ?_⟩
  exact
    { layout := hchunk ▸ hG.layout
      effect := fun hp => hchunk ▸ hG.effect hp
      enough := hG.enough
      valid := fun hp => by rw [hchunk, hcaps]; exact hG.valid hp
      falls := fun hp hf => harrive (hG.falls hp hf)
      jumps := fun hp hj => harrive ((hG.jumps hp hj).resolve_left fun ⟨_, hm, _⟩ => nomatch hm)
      entry := hG.entry.resolve_right fun ⟨h0, _⟩ => by
        have := p.op.size_pos
        omega
      last := ⟨o, p, hp, hop, hchunk ▸ hend⟩
      slots := fun {i m} hm => by
        obtain ⟨sl, hs, -⟩ := Option.map_eq_some_iff.1 hm
        have := (Array.getElem?_eq_some_iff.1 hs).1
        rw [hlocals]
        exact Int.ofNat_lt.2 this
      depth := fun hp => by
        rw [hmax]
        exact Int.ofNat_le.2 (hG.depth hp) }

/-! ## Functions -/

def plainFacts (slots : Slots) : SlotFacts :=
  ((range slots.count).filter fun i => decide (slots.mode i = some .byReference)).map (·, false)

theorem mem_plainFacts {x : Nat × Bool} : x ∈ plainFacts slots ↔ x.2 = false ∧ slots.mode x.1 = some .byReference := by
  obtain ⟨i, b⟩ := x
  simp only [plainFacts, mem_map, mem_filter, mem_range, decide_eq_true_eq,
    Prod.mk.injEq]
  constructor
  · rintro ⟨j, ⟨-, hm⟩, rfl, rfl⟩
    exact ⟨rfl, hm⟩
  · rintro ⟨rfl, hm⟩
    obtain ⟨sl, hs, -⟩ := Option.map_eq_some_iff.1 hm
    exact ⟨i, ⟨(Array.getElem?_eq_some_iff.1 hs).1, hm⟩, rfl, rfl⟩

theorem sound_start {image : Image} {f : FunctionState} (hcode : f.chunk.code = #[])
    (hcover : f.chunk.DepthsCover) (hdepth : f.stack.depth = 0) (hok : f.slots.Ok)
    (hlive : ∀ {j : Nat} {sl : Slot}, f.slots.slots[j]? = some sl → sl.live = true)
    (henv : ∀ x ∈ f.env, BindingValid f.slots caps (plainFacts f.slots) x.2) :
    Sound f.chunk.depths.isSome caps [] (plainFacts f.slots) true image f fun _ => none where
  layout := .empty hcode hcover
  effect h := nomatch h
  enough h := nomatch h
  valid h := nomatch h
  falls h := nomatch h
  jumps h := nomatch h
  opened _ h := nomatch h
  entry := .inr ⟨by rw [hcode]; rfl, hdepth, fun x hx => (mem_plainFacts.1 hx).1⟩
  env := henv
  known x hx := by
    obtain ⟨-, hm⟩ := mem_plainFacts.1 hx
    obtain ⟨sl, hs, hc⟩ := Option.map_eq_some_iff.1 hm
    exact ⟨sl, hs, hlive hs, hc⟩
  slots := hok
  depth h := nomatch h
  max := by rw [hdepth]; exact Nat.zero_le _
  recorded := rfl

/-- What the compilation of a function gives: `fs` are the functions that were compiled before it. -/
structure Finished (r : Bool) (f : Function) (fs : Image) : Prop where
  certified : ∃ mode G, f.Certified fs mode G
  recorded : f.chunk.depths.isSome = r
  image : Image.Certified fs
  depths : ∀ g ∈ fs, g.chunk.depths.isSome = r

theorem map_byRef_of_forall₂ (h : List.Forall₂ (fun n k => k.byRef = shared ctx n ∧ CapturedFrom enclosing k) ns ks) :
    ks.map (·.byRef) = ns.map (shared ctx) ∧ ∀ k ∈ ks, CapturedFrom enclosing k := by
  induction h with
  | nil => exact ⟨rfl, fun _ h => nomatch h⟩
  | cons hk _ ih =>
    refine ⟨by simp [hk.1, ih.1], fun k hmem => ?_⟩
    rcases mem_cons.1 hmem with rfl | hmem
    · exact hk.2
    · exact ih.2 k hmem

/-- A function starts to satisfy the invariant once its parameters have slots and its captured variables
are in scope: all slots hold plain values. -/
theorem good_start {b : Slots} (hstart : s.function = newFunction ctx name) (himage : Image.Certified s.functions)
    (hdepths : ∀ g ∈ s.functions, g.chunk.depths.isSome = ctx.options.recordDepths) (hb : b.Ok)
    (hlive : ∀ {j : Nat} {sl : Slot}, b.slots[j]? = some sl → sl.live = true)
    (henv : ∀ x ∈ env, x ∈ s.function.env ∨ ∃ (j n : Nat), (ctx.captures.of lambda)[j]? = some n ∧
      x = freeBinding ctx (0 + j) n) :
    Good ctx.options.recordDepths ((ctx.captures.of lambda).map (shared ctx)) [] (plainFacts b) true
      { s with function := { s.function with slots := b, env := env } } := by
  have hcode : s.function.chunk.code = #[] := by rw [hstart]; rfl
  have hdepth : s.function.stack.depth = 0 := by rw [hstart]; rfl
  have hcover : s.function.chunk.DepthsCover := by
    rw [hstart]
    unfold newFunction
    cases ctx.options.recordDepths <;> simp [Chunk.DepthsCover]
  have hrecorded : s.function.chunk.depths.isSome = ctx.options.recordDepths := by
    rw [hstart]
    unfold newFunction
    cases ctx.options.recordDepths <;> rfl
  have hnone : s.function.env = [] := by rw [hstart]; rfl
  refine ⟨himage, hdepths, fun _ => none, ?_⟩
  rw [← hrecorded]
  refine sound_start (f := { s.function with slots := b, env := env }) hcode hcover hdepth hb hlive
    fun x hx => ?_
  rcases henv x hx with hx | ⟨j, n, hj, rfl⟩
  · rw [hnone] at hx
    cases hx
  · have hcap : ((ctx.captures.of lambda).map (shared ctx))[j]? = some (shared ctx n) := by
      rw [getElem?_map, hj]
      rfl
    unfold BindingValid freeBinding
    cases hn : shared ctx n with
    | true | false => simp [hn, hcap]

theorem CapturedFrom.found (h : CapturedFrom (some env) k) (henv : ∀ x ∈ env, BindingValid slots caps known x.2)
    (hknown : ∀ x ∈ known, ∃ sl, slots.slots[x.1]? = some sl) : k.Found slots.mode caps known := by
  obtain ⟨env', id, b, heq, hb, hsource, hindex, hbyRef⟩ := h.bound
  cases heq
  have hvalid := henv _ hb
  refine ⟨b.index, hindex, ?_⟩
  unfold BindingValid at hvalid
  rw [hsource, hbyRef]
  cases hp : b.place with
  | slot =>
    simp only [hp] at hvalid
    obtain ⟨sl, hs, -, hc⟩ := hvalid
    exact ⟨⟨_, Slots.mode_eq hs, hc⟩, rfl⟩
  | slotCell =>
    simp only [hp] at hvalid
    obtain ⟨sl, hs⟩ := hknown _ hvalid
    exact ⟨⟨_, Slots.mode_eq hs⟩, hvalid, rfl⟩
  | free | freeCell =>
    simp only [hp] at hvalid
    exact ⟨hvalid, rfl⟩

theorem runs_nestedName : Runs strict (nestedName name) s fun _ s' => ∃ n, s' = { s with names := n } :=
  .ite (fun _ => .of_ok rfl ⟨_, rfl⟩) fun _ => .pure ⟨_, rfl⟩

/-- A scope that lambda `l` can be compiled in without a fault, if its body can be in scopes with the property `Q`. -/
structure Opens (ctx : Context) (enclosing : Option Bindings) (l : Lambda) (Q : Bindings → Prop) : Prop where
  agrees : ∀ n ∈ ctx.captures.of l.id, CellAgrees ctx enclosing n
  body : ∀ {env env' : Bindings},
    (∀ x ∈ env, ∃ (j n : Nat), (ctx.captures.of l.id)[j]? = some n ∧ x = freeBinding ctx (0 + j) n) →
    (∀ n ∈ ctx.captures.of l.id, Enclosed ctx enclosing n) → Binds ctx l.id l.params env env' → Q env'

variable {Q : Bindings → Prop} (hbody : Yields ctx.options.recordDepths Q l.body.type body)
  (hresult : l.result.isSome = true → ∃ t, l.body.type = some t)
include hbody hresult

theorem runs_function {shape : Shape} (hstart : s.function = newFunction ctx name)
    (hlen : shape.params.length = l.params.length) (hopens : strict → Opens ctx enclosing l Q) :
    Runs strict (function ctx enclosing l shape body) s fun f s' =>
      Array.Grows s'.functions s.functions ∧ (∀ k ∈ f.captures, CapturedFrom enclosing k) ∧
      (Image.Certified s.functions → (∀ g ∈ s.functions, g.chunk.depths.isSome = ctx.options.recordDepths) →
        Finished ctx.options.recordDepths f s'.functions) := by
  have hslots : s.function.slots = Slots.start ctx.options.reuseSlots := by rw [hstart]; rfl
  refine .bind (runs_allocateParams (hslots ▸ Slots.ok_start _) (by rw [hslots]; rfl)
    (by rw [hslots]; simp [Slots.start])) fun hparams => ?_
  obtain ⟨b, rfl, hb, houter, hlive, -, hnew⟩ := hparams
  have hslot : ∀ {k : Nat} {v : Var} {t : Option Ty}, l.params[k]? = some v →
      shape.params[k]? = some t → b.slots[0 + k]? = some ⟨t, paramMode ctx l.id v t, 0, true⟩ := by
    intro k v t hv ht
    have := hnew hv ht
    rw [hslots] at this
    exact this
  refine .bind (runs_bindCaptures fun h => (hopens h).agrees) fun {ks _} hcaptures => ?_
  obtain ⟨env, rfl, henv, hks, henclosed⟩ := hcaptures
  obtain ⟨hbyRef, hfrom⟩ := map_byRef_of_forall₂ hks
  refine .bind (runs_prologue (r := ctx.options.recordDepths) hlen hb houter fun hv ht => ⟨_, hslot hv ht, rfl, rfl⟩)
    fun {_ s₃} hprologue => ?_
  obtain ⟨hok₃, hfun₃, hentries₃, hbinds, hgood₃⟩ := hprologue
  have hready : Ready strict Q s₃ := by
    refine ⟨hok₃, fun h => (hopens h).body (fun x hx => (henv x hx).resolve_left ?_) henclosed hbinds⟩
    show x ∉ s.function.env
    rw [hstart]
    exact not_mem_nil
  refine .bind (hbody hready) fun {_ s₄} hleaves => ?_
  obtain ⟨es, hes, hrun⟩ := hleaves
  have hentries₄ : entries s₄ = [] ++ es := by
    rw [hrun.top, hentries₃]
    show s.function.stack.entries.toList ++ es = es
    rw [hstart]
    rfl
  refine .bind (runs_epilogue (r := ctx.options.recordDepths) hrun.ok hes hentries₄ hresult) fun {_ s₅} hreturn => ?_
  refine .get_bind (.ite (fun hdepth => ?_) fun _ => .pure ⟨?_, hfrom, fun himage hdepths => ?_⟩)
  · -- the return leaves nothing behind
    refine absurd ?_ hdepth
    rw [depth_eq, hreturn.entries]
    rfl
  · exact hreturn.functions.trans (hrun.functions.trans hfun₃)
  · have hg₂ := good_start (s := s) hstart himage hdepths hb hlive henv
    obtain ⟨known, hg₃⟩ := hgood₃ hg₂ fun hv ht hm =>
      mem_plainFacts.2 ⟨rfl, by rw [Slots.mode_eq (hslot hv ht), ← hm]⟩
    have hend := hreturn.ended (hrun.good hg₃)
    exact
      { certified := hend.certified rfl rfl rfl hbyRef
        recorded := by
          obtain ⟨_, _, hG, -⟩ := hend.sound
          exact hG.recorded
        image := hend.image
        depths := hend.depths }

theorem yields_lambdaCode {P : Bindings → Prop} (hopens : ∀ env, P env → Opens ctx (some env) l Q) :
    Yields ctx.options.recordDepths P (some l.type) (lambdaCode ctx l body) := by
  intro strict s hs
  refine .checkProblem (.ite (fun _ => .decline) fun _ => .bind runs_nestedName fun {name s₀} ⟨n, hs₀⟩ => ?_)
  subst hs₀
  refine .get_bind (.modify_bind (.bind (runs_function hbody hresult rfl (length_map _) fun h => hopens _ (hs.env h))
    fun {f s₂} ⟨hfunctions, hfrom, hfinished⟩ => .bind_of_ok rfl ?_))
  have hgrows : Array.Grows (s₂.functions.push f) s.functions :=
    (Array.grows_push _ _).trans hfunctions
  -- the enclosing function is as it was, and the image has one function more
  have hback : Turned ctx.options.recordDepths [] [] s
      { s₂ with functions := s₂.functions.push f, function := s.function } := by
    refine ⟨⟨hs.ok, rfl, .refl _, hgrows, fun _ hb => hb⟩, fun {caps opened known} hg => ?_⟩
    have hf := hfinished hg.image hg.depths
    obtain ⟨G, hG⟩ := hg.sound
    refine ⟨Image.Certified.push hf.image hf.certified, fun g hg' => ?_, G, hG.change rfl rfl (.refl _) hgrows (.refl _)
      hG.slots (fun _ => rfl) (Nat.le_refl _) hG.max (List.Subset.refl _) hG.known hG.env⟩
    rcases Array.mem_push.1 hg' with hg' | rfl
    · exact hf.depths g hg'
    · exact hf.recorded
  refine .bind (runs_constant (r := ctx.options.recordDepths) hback.ok) fun {i s₄} ⟨hconst, hk⟩ => ?_
  have hall : Turned ctx.options.recordDepths [] [] s s₄ := hback.push hconst
  refine .leaves (runs_emit hall.ok (append_nil _).symm rfl rfl rfl fun {caps opened known e} hg => ?_) hall
    ⟨false, rfl⟩
  obtain ⟨G, hG⟩ := hg.sound
  refine ⟨_, f, hk, hconst.functions _ _ (by simp), fun k hmem => ?_⟩
  refine (hfrom k hmem).found (fun x hx => ?_) fun x hx => ?_
  · refine hG.env x ?_
    rw [hconst.env]
    exact hx
  · obtain ⟨sl, hs, -⟩ := hG.known x hx
    exact ⟨sl, hs⟩

end TreeMachine.Codegen
