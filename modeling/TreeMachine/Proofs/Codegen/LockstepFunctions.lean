import TreeMachine.Proofs.Codegen.LockstepNodes
import TreeMachine.Proofs.Codegen.Functions

/-!
# Functions in lockstep

A function starts on both sides with its parameters in the same slots, since no slot was given back yet.
Its captured variables are found in the enclosing function, where slots may differ. From there on the nodes
keep in step, and what they emit is the same function in frames with different slots.

* **`follows_function`** proves it of `function`, and `agrees_lambdaCode` uses it for closures.
* **`agrees_compile`** is the induction over the expression.
* **`Compiler.compile_alike`** says that compilation succeeds with slots used again where it succeeds
  without, and gives alike artifacts.
-/

namespace TreeMachine

open TreeMachine.EStateM

variable {outer : SlotPairs} {enclosing enclosing' : Option Bindings} {s t s' : CodegenState}

namespace Codegen

variable {ctx : Context} {reuse : Bool} {kind : Kind} {w w' : Pairing}

/-! ## Captured variables -/

inductive ScopesAlike (outer : SlotPairs) : Option Bindings → Option Bindings → Prop where
  | none : ScopesAlike outer none none
  | some {env env' : Bindings} (h : List.Forall₂ (BindingAlike outer) env env') :
    ScopesAlike outer (some env) (some env')

theorem BindingAlike.capture {id : Nat} {b b' : Binding}
    (h : BindingAlike outer (id, b) (id, b')) (name : String) (byRef : Bool) :
    Capture.Alike outer ⟨name, b.place.source, b.index, byRef⟩ ⟨name, b'.place.source, b'.index, byRef⟩ := by
  obtain ⟨-, hplace, -, hindex⟩ := h
  dsimp only at hplace hindex
  refine ⟨by rw [hplace], ?_⟩
  cases hp : b.place with
  | slot | slotCell =>
    rw [hp] at hindex
    exact ⟨b.index, b'.index, rfl, rfl, hindex⟩
  | free | freeCell =>
    rw [hp] at hindex
    exact congrArg Int.ofNat hindex

theorem follows_captureFrom (h : ScopesAlike outer enclosing enclosing') (n : Nat) :
    Follows (Paired w) (fun k k' s t => k.Alike outer k' ∧ Paired w s t) (captureFrom ctx enclosing n)
      (captureFrom (ctx.reusing reuse) enclosing' n) := by
  intro s t hp k s' hrun
  cases h with
  | none => exact (throw_ne_ok hrun).elim
  | @some env env' henv =>
    unfold captureFrom at hrun ⊢
    rcases lookup_alike henv (ctx.captures.vars.getD n default).var.id with
      ⟨he, -⟩ | ⟨b, b', he, he', hb⟩
    · simp only [he] at hrun
      exact (throw_ne_ok hrun).elim
    · simp only [he] at hrun
      simp only [he']
      rcases ite_eq_ok.1 hrun with ⟨-, hrun⟩ | ⟨hnumber, hrun⟩
      · exact (throw_ne_ok hrun).elim
      rcases ite_eq_ok.1 hrun with ⟨-, hrun⟩ | ⟨hcell, hrun⟩
      · exact (throw_ne_ok hrun).elim
      obtain ⟨rfl, rfl⟩ := pure_eq_ok.1 hrun
      have hplace : b'.place = b.place := hb.place
      refine ⟨_, t, ?_, hb.capture _ _, hp⟩
      rw [if_neg (by rw [show b'.number = b.number from hb.number]; exact hnumber),
        if_neg (by rw [hplace]; exact hcell)]
      rfl

theorem bindingAlike_free (known : SlotPairs) (id i : Nat) (number : Option Nat) (c : Prop) [Decidable c] :
    BindingAlike known (id, ⟨if c then .freeCell else .free, i, number⟩)
      (id, ⟨if c then .freeCell else .free, i, number⟩) := by
  refine ⟨rfl, rfl, rfl, ?_⟩
  by_cases hc : c
  · simp only [hc, if_true]
  · simp only [hc, if_false]

theorem follows_bindCaptures (h : ScopesAlike outer enclosing enclosing') (i : Nat) (ns : List Nat) :
    Follows (Paired w) (fun ks ks' s t => List.Forall₂ (Capture.Alike outer) ks ks' ∧
      ∃ w', w.Keeps w' ∧ Paired w' s t) (bindCaptures ctx enclosing i ns)
      (bindCaptures (ctx.reusing reuse) enclosing' i ns) := by
  induction ns generalizing w i with
  | nil =>
    intro s t hp ks s' hrun
    obtain ⟨rfl, rfl⟩ := pure_eq_ok.1 hrun
    exact ⟨[], t, rfl, .nil, w, .refl w, hp⟩
  | cons n ns ih =>
    intro s t hp ks s' hrun
    rw [bindCaptures] at hrun ⊢
    rcases ite_eq_ok.1 hrun with ⟨-, hrun⟩ | ⟨hroom, hrun⟩
    · exact (throw_ne_ok hrun).elim
    rw [if_neg hroom]
    obtain ⟨_, s₁, hbind, hrun⟩ := bind_eq_ok.1 hrun
    obtain rfl := modify_eq_ok.1 hbind
    obtain ⟨k, s₂, hk, hrun⟩ := bind_eq_ok.1 hrun
    obtain ⟨ks', s₃, hks, hrun⟩ := bind_eq_ok.1 hrun
    obtain ⟨rfl, rfl⟩ := pure_eq_ok.1 hrun
    have hfree := bindingAlike_free w.known (ctx.captures.vars.getD n default).var.id i (some n)
      ((ctx.captures.vars.getD n default).mode = .byReference)
    have hp₁ := hp.rebind (.cons hfree hp.envs)
    obtain ⟨k', t₂, hk', hkk, hp₂⟩ := follows_captureFrom h n hp₁ hk
    obtain ⟨ks'', t₃, hks', hkks, w', hw, hp₃⟩ := ih (i + 1) hp₂ hks
    refine ⟨k' :: ks'', t₃, ?_, .cons hkk hkks, w', ?_, hp₃⟩
    · refine bind_eq_ok.2 ⟨(), _, rfl, bind_eq_ok.2 ⟨k', t₂, hk', ?_⟩⟩
      exact bind_eq_ok.2 ⟨ks'', t₃, hks', rfl⟩
    · exact ⟨hw.image, hw.image', hw.opened, hw.live, hw.known⟩

/-! ## Parameters -/

/-- No code was emitted yet, and all slots are those of parameters, which are the same on both sides. -/
structure Entering (w : Pairing) (s t : CodegenState) : Prop extends Paired w s t where
  empty : s.function.chunk.code = #[]
  empty' : t.function.chunk.code = #[]
  opened : w.opened = []
  same : ∀ x ∈ w.known, x.2 = x.1
  params : ∀ k < s.function.slots.count, (k, k) ∈ w.known
  count : t.function.slots.count = s.function.slots.count
  live : ∀ {j : Nat} {sl : Slot}, s.function.slots.slots[j]? = some sl → sl.live = true
  live' : ∀ {j : Nat} {sl : Slot}, t.function.slots.slots[j]? = some sl → sl.live = true

theorem Entering.allocate (h : Entering w s t) {u : Option Ty} {name : String}
    {m : CaptureMode} {i : Nat} (hrun : Codegen.allocate kind u name m 0 s = .ok i s') :
    s'.function.slots.count = s.function.slots.count + 1 ∧
      ∃ t', Codegen.allocate kind u name m 0 t = .ok i t' ∧ ∃ w', w.Keeps w' ∧ Entering w' s' t' := by
  obtain ⟨j, t', hrun', hp⟩ := follows_allocate u name m 0 h.toPaired hrun
  obtain ⟨a, ha, rfl⟩ := allocate_eq_ok hrun
  obtain ⟨b, hb, rfl⟩ := allocate_eq_ok hrun'
  have ha := Slots.allocated_of_allocate ha
  have hb := Slots.allocated_of_allocate hb
  obtain ⟨hsize, hlive⟩ := ha.all_live h.live
  obtain ⟨hsize', hlive'⟩ := hb.all_live h.live'
  have hi : i = s.function.slots.count := ha.eq_size h.live
  obtain rfl : j = i := ((hb.eq_size h.live').trans h.count).trans hi.symm
  have hcount : b.slots.size = a.slots.size := by
    have hc : t.function.slots.slots.size = s.function.slots.slots.size := h.count
    omega
  have hok := hp.toOk.learn (Pairing.holds_place j j 0)
  have hsame : ∀ x ∈ ((w.place j j 0).learn j j).known, x.2 = x.1 := List.forall_mem_cons.2 ⟨rfl, h.same⟩
  refine ⟨hsize, _, hrun', (w.place j j 0).learn j j,
    (w.keeps_place _ _ _).trans (Pairing.keeps_learn _ _ _), ?_⟩
  obtain ⟨P, hP⟩ := h.code
  exact
    { hok, hp with
      code := by
        -- without code, what agrees is asked of the start of a call only
        have hentry : AgreeAtEntry a.slots.size b.slots.size
            ((w.place j j 0).learn j j).known := by
          intro x hx
          obtain ⟨p, hpl, rfl⟩ := hok.known x hx
          have hlt : p.left < a.slots.size := hp.slots.left_lt p hpl
          exact ⟨hsame _ hx, hlt, hcount ▸ hlt⟩
        refine ⟨fun _ => none, ?_⟩
        show Renamed _ _ _ _ _ _ w.opened _ _
        rw [h.opened]
        exact .empty h.empty h.empty' hP.constants hP.depths hP.first.cover hP.second.cover hentry
      empty := h.empty
      empty' := h.empty'
      opened := h.opened
      same := hsame
      params := fun k hk => by
        have hk : k < a.slots.size := hk
        rcases Nat.lt_or_eq_of_le (Nat.le_of_lt_succ (hsize ▸ hk)) with hlt | rfl
        · exact List.mem_cons_of_mem _ (h.params k hlt)
        · rw [hi]
          exact List.mem_cons_self
      count := hcount
      live := hlive
      live' := hlive' }

theorem follows_allocateParams {lambda : Nat} {vs : List Var} {ts : List (Option Ty)}
    {u : Unit} (h : Entering w s t) (hrun : allocateParams ctx lambda vs ts s = .ok u s') :
    ∃ t', allocateParams (ctx.reusing reuse) lambda vs ts t = .ok () t' ∧ ∃ w', w.Keeps w' ∧ Entering w' s' t' ∧
      s'.function.slots.count = s.function.slots.count + min vs.length ts.length := by
  induction vs generalizing ts s t w with
  | nil =>
    obtain ⟨-, rfl⟩ := pure_eq_ok.1 hrun
    exact ⟨t, rfl, w, .refl w, h, by simp⟩
  | cons v vs ih =>
    cases ts with
    | nil =>
      obtain ⟨-, rfl⟩ := pure_eq_ok.1 hrun
      exact ⟨t, rfl, w, .refl w, h, by simp⟩
    | cons ty ts =>
      obtain ⟨i, s₁, halloc, hrun⟩ := bind_eq_ok.1 hrun
      obtain ⟨hcount, t₁, halloc', w₁, hw₁, h₁⟩ := h.allocate halloc
      obtain ⟨t', hrun', w', hw', h', hcount'⟩ := ih h₁ hrun
      refine ⟨t', bind_eq_ok.2 ⟨i, t₁, halloc', hrun'⟩, w', hw₁.trans hw', h', ?_⟩
      rw [hcount', hcount]
      simp only [List.length_cons]
      omega

theorem declares_prologue {lambda i : Nat} {vs : List Var} {ts : List (Option Ty)}
    (h : ∀ k < min vs.length ts.length, (i + k, i + k) ∈ w.known) :
    Declares w w (prologue ctx lambda i vs ts) (prologue (ctx.reusing reuse) lambda i vs ts) := by
  induction vs generalizing w i ts with
  | nil => exact .pure _
  | cons v vs ih =>
    cases ts with
    | nil => exact .pure _
    | cons t ts =>
      have hi : (i, i) ∈ w.known := h 0 (by simp only [List.length_cons]; omega)
      have hrest : ∀ w', w.Keeps w' → Declares w' w' (prologue ctx lambda (i + 1) vs ts)
          (prologue (ctx.reusing reuse) lambda (i + 1) vs ts) := by
        intro w' hw
        refine ih fun k hk => hw.known ?_
        have := h (k + 1) (by simp only [List.length_cons]; omega)
        rwa [Nat.add_assoc, Nat.add_comm 1 k]
      rw [prologue, prologue]
      by_cases ht : t = some v.type
      · rw [if_pos ht, if_pos ht]
        exact .bind (declares_bindVariable hi) fun _ w' hw => hrest w' hw
      · rw [if_neg ht, if_neg ht]
        refine .after (Agrees.planned _ _ w) (.refl w) fun plan => ?_
        refine .after (Agrees.needType _ w) (.refl w) fun source => ?_
        refine .after (steps_read rfl hi _) (.refl w) fun _ => ?_
        refine .after (agrees_deliver plan w) (.refl w) fun _ => ?_
        exact .allocate fun w₁ j k hw₁ hjk => declares_store hjk fun w' hw => hrest w' (hw₁.trans hw)

/-! ## The return -/

theorem agrees_coerce (t : Ty) : Agrees (coerce ctx t) (coerce (ctx.reusing reuse) t) :=
  (agrees_peek 0).bind fun _ => (Agrees.planned _ _).bind fun plan => agrees_convert plan

theorem agrees_returnVoid (hasValue : Bool) : Agrees (returnVoid hasValue) (returnVoid hasValue) :=
  .ite (fun _ => (agrees_emit rfl _ _).bind fun _ => agrees_emit rfl _ _) fun _ => agrees_emit rfl _ _

theorem agrees_epilogue (body own result : Option Ty) :
    Agrees (epilogue ctx body own result) (epilogue (ctx.reusing reuse) body own result) := by
  cases own with
  | none =>
    cases result with
    | none => exact agrees_returnVoid _
    | some t => exact .decline _ _
  | some r =>
    cases result with
    | none => exact (agrees_coerce r).bind fun _ => agrees_returnVoid true
    | some t =>
      exact (agrees_coerce r).bind fun _ => (agrees_coerce t).bind fun _ => agrees_own.bind fun _ =>
        agrees_emit rfl _ _

/-! ## Whole functions -/

def Pairing.start (image image' : Image) : Pairing := ⟨image, image', [], [], [], [], []⟩

theorem entering_start (hfresh : ctx.options.reuseSlots = false) (reuse : Bool)
    (himage : Image.Alike s.functions t.functions) (hcells : t.hostCells = s.hostCells)
    (hnames : t.names = s.names) (name : String) :
    Entering (.start s.functions t.functions) { s with function := newFunction ctx name }
      { t with function := newFunction (ctx.reusing reuse) name } := by
  have hslots : ∀ o, (Slots.start o).slots = #[] := fun _ => rfl
  have hcover : (newFunction ctx name).chunk.DepthsCover := by
    intro ds hds
    unfold newFunction at hds ⊢
    dsimp only at hds ⊢
    split_ifs at hds
    cases hds
    rfl
  exact
    { known := nofun
      env := .nil
      image := himage
      grows := .refl _
      grows' := .refl _
      hostCells := hcells
      names := hnames
      name := rfl
      stack := rfl
      slots :=
        { inner := rfl
          outer := rfl
          next := rfl
          fresh := hfresh
          fewer := Nat.le_refl _
          le_limit := Nat.zero_le _
          open_lt := fun i hi => by
            obtain rfl := List.mem_singleton.1 hi
            exact Int.zero_lt_one
          left_lt := nofun
          right_live := nofun
          scope_lt := nofun
          unique := nofun }
      left := rfl
      right := rfl
      code := ⟨_, .empty rfl rfl rfl rfl hcover hcover nofun⟩
      empty := rfl
      empty' := rfl
      opened := rfl
      same := nofun
      params := nofun
      count := rfl
      live := fun h => by simp [newFunction, hslots] at h
      live' := fun h => by simp [newFunction, hslots] at h }

structure FinishedAlike (outer : SlotPairs) (s t : CodegenState) (f g : Function) (s' t' : CodegenState) : Prop where
  function : f.Alike s'.functions t'.functions g
  captures : List.Forall₂ (Capture.Alike outer) f.captures g.captures
  image : Image.Alike s'.functions t'.functions
  grows : Array.Grows s'.functions s.functions
  grows' : Array.Grows t'.functions t.functions
  hostCells : t'.hostCells = s'.hostCells
  names : t'.names = s'.names

theorem follows_function {l : Lambda} {shape : Shape} {body body' : Codegen Unit} {f : Function} {s' : CodegenState}
    (hscopes : ScopesAlike outer enclosing enclosing') (hbody : Agrees body body')
    (h : Entering w s t) (hw : w.image = s.functions ∧ w.image' = t.functions)
    (hrun : function ctx enclosing l shape body s = .ok f s') :
    ∃ g t', function (ctx.reusing reuse) enclosing' l shape body' t = .ok g t' ∧
      FinishedAlike outer s t f g s' t' := by
  obtain ⟨_, s₁, hparams, hrun⟩ := bind_eq_ok.1 hrun
  obtain ⟨captures, s₂, hcaptures, hrun⟩ := bind_eq_ok.1 hrun
  obtain ⟨_, s₃, hprologue, hrun⟩ := bind_eq_ok.1 hrun
  obtain ⟨_, s₄, hcode, hrun⟩ := bind_eq_ok.1 hrun
  obtain ⟨_, s₅, hepilogue, hrun⟩ := bind_eq_ok.1 hrun
  obtain ⟨_, s₆, hget, hrun⟩ := bind_eq_ok.1 hrun
  obtain ⟨rfl, rfl⟩ := get_eq_ok.1 hget
  obtain ⟨t₁, hparams', w₁, hw₁, h₁, hcount⟩ := follows_allocateParams h hparams
  obtain ⟨captures', t₂, hcaptures', halike, w₂, hw₂, hp₂⟩ :=
    follows_bindCaptures hscopes 0 (ctx.captures.of l.id) h₁.toPaired hcaptures
  have hknown : ∀ k < min l.params.length shape.params.length, (0 + k, 0 + k) ∈ w₂.known := by
    intro k hk
    rw [Nat.zero_add]
    exact hw₂.known (h₁.params k (by omega))
  obtain ⟨_, t₃, hprologue', -, w₃, hw₃, hp₃⟩ := declares_prologue hknown hp₂ hprologue
  obtain ⟨_, t₄, hcode', -, hp₄⟩ := hbody w₃ hp₃ hcode
  obtain ⟨_, t₅, hepilogue', -, hp₅⟩ := agrees_epilogue _ _ _ w₃ hp₄ hepilogue
  have hkeeps := (hw₁.trans hw₂).trans hw₃
  rcases ite_eq_ok.1 hrun with ⟨-, hrun⟩ | ⟨hdepth, hrun⟩
  · exact (throw_ne_ok hrun).elim
  obtain ⟨rfl, rfl⟩ := pure_eq_ok.1 hrun
  have hempty : ¬t₅.function.stack.depth ≠ 0 := by rw [hp₅.stack]; exact hdepth
  let g : Function :=
    { name := t₅.function.name, chunk := t₅.function.chunk, arity := l.params.length
      locals := t₅.function.slots.count, maxStack := t₅.function.stack.max, captures := captures'
      type := some l.type }
  refine ⟨g, t₅, ?_, ?_⟩
  · refine bind_eq_ok.2 ⟨(), t₁, hparams', bind_eq_ok.2 ⟨captures', t₂, hcaptures', ?_⟩⟩
    refine bind_eq_ok.2 ⟨_, t₃, hprologue', bind_eq_ok.2 ⟨_, t₄, hcode', ?_⟩⟩
    refine bind_eq_ok.2 ⟨_, t₅, hepilogue', bind_eq_ok.2 ⟨t₅, t₅, rfl, ?_⟩⟩
    rw [if_neg hempty]
    rfl
  · obtain ⟨P, hP⟩ := hp₅.code
    rw [hkeeps.opened, h.opened] at hP
    exact
      { function := ⟨hp₅.name, rfl, rfl, _, _, _, P, rfl, rfl, hP⟩
        captures := halike
        image := hp₅.image
        grows := by rw [← hw.1, ← hkeeps.image]; exact hp₅.grows
        grows' := by rw [← hw.2, ← hkeeps.image']; exact hp₅.grows'
        hostCells := hp₅.hostCells
        names := hp₅.names }

/-! ## Closures -/

theorem agrees_nestedName (name : String) : Agrees (nestedName name) (nestedName name) := by
  refine .ite (fun _ w s t hp a s' hrun => ?_) fun _ => .pure _
  obtain ⟨rfl, rfl⟩ := modifyGet_eq_ok.1 hrun
  refine ⟨_, _, rfl, ?_, ?_⟩
  · rw [hp.name, hp.names]
  · rw [hp.names]
    exact { hp with names := rfl }

theorem follows_closure {k : Nat} {f g : Function} {rs : List StackEntry}
    (hcaptures : List.Forall₂ (Capture.Alike w.known) f.captures g.captures) :
    Follows (fun s t => Paired w s t ∧ s.functions[k]? = some f ∧ t.functions[k]? = some g)
      (fun a b s t => b = a ∧ Paired w s t)
      (do emit kind .closure [← constant kind (.function k)] rs)
      (do emit kind .closure [← constant kind (.function k)] rs) := by
  intro s t h u s' hrun
  obtain ⟨hp, hf, hg⟩ := h
  obtain ⟨i, s₁, hconst, hemit⟩ := bind_eq_ok.1 hrun
  obtain ⟨_, t₁, hconst', rfl, hp₁⟩ := agrees_constant (.function k) w hp hconst
  obtain ⟨ks, rfl, hi, -⟩ := constant_eq_ok hconst
  obtain ⟨ks', rfl, -, -⟩ := constant_eq_ok hconst'
  obtain ⟨e, he⟩ := emit_eq_ok hemit
  obtain ⟨t', ht, hp'⟩ := hp₁.emit kind _ w.opened w.known he he.length he.fits
    (fun _ => rfl) ⟨rfl, k, f, g, hi, hf, hg, hcaptures⟩ (List.Subset.refl _) rfl hp₁.toOk
  exact ⟨(), t', bind_eq_ok.2 ⟨_, _, hconst', ht⟩, rfl, hp'⟩

theorem agrees_lambdaCode {l : Lambda} {body body' : Codegen Unit}
    (hfresh : ctx.options.reuseSlots = false) (h : Agrees body body') :
    Agrees (lambdaCode ctx l body) (lambdaCode (ctx.reusing reuse) l body') := by
  refine (agrees_checkProblem l.id).bind fun _ => .ite (fun _ => .decline _ _) fun _ => ?_
  refine (agrees_nestedName l.name).bind fun name w s t hp u s' hrun => ?_
  obtain ⟨outer, s₁, hget, hrun⟩ := bind_eq_ok.1 hrun
  obtain ⟨rfl, rfl⟩ := get_eq_ok.1 hget
  obtain ⟨_, s₂, hmodify, hrun⟩ := bind_eq_ok.1 hrun
  obtain rfl := modify_eq_ok.1 hmodify
  obtain ⟨f, s₃, hfunction, hrun⟩ := bind_eq_ok.1 hrun
  obtain ⟨index, s₄, hpush, hrun⟩ := bind_eq_ok.1 hrun
  obtain ⟨rfl, rfl⟩ := modifyGet_eq_ok.1 hpush
  have henter := entering_start hfresh reuse hp.image hp.hostCells hp.names name
  obtain ⟨g, t₃, hfunction', hdone⟩ :=
    follows_function (.some hp.envs) h henter ⟨rfl, rfl⟩ hfunction
  have hpushed : Image.Alike (s₃.functions.push f) (t₃.functions.push g) := hdone.image.push hdone.function
  have hgrows := (Array.grows_push s₃.functions f).trans hdone.grows
  have hgrows' := (Array.grows_push t₃.functions g).trans hdone.grows'
  -- the enclosing function is as it was, and the images have one function more
  have hback : Paired w { s₃ with functions := s₃.functions.push f, function := s.function }
      { t₃ with functions := t₃.functions.push g, function := t.function } := by
    obtain ⟨P, hP⟩ := hp.code
    exact
      { hp with
        image := hpushed
        grows := hgrows.trans hp.grows
        grows' := hgrows'.trans hp.grows'
        hostCells := hdone.hostCells
        names := hdone.names
        code := ⟨P, hP.enlarge hgrows hgrows' (Nat.le_refl _) (Nat.le_refl _) (List.Subset.refl _)⟩ }
  have hsize : t₃.functions.size = s₃.functions.size := hdone.image.size
  obtain ⟨_, t', hclosure, rfl, hp'⟩ := follows_closure (k := s₃.functions.size) hdone.captures
    ⟨hback, by simp, by rw [← hsize]; simp⟩ hrun
  refine ⟨(), t', ?_, rfl, hp'⟩
  refine bind_eq_ok.2 ⟨t, t, rfl, bind_eq_ok.2 ⟨(), _, rfl, ?_⟩⟩
  refine bind_eq_ok.2 ⟨g, t₃, hfunction', bind_eq_ok.2 ⟨_, _, rfl, ?_⟩⟩
  rw [hsize]
  exact hclosure

/-! ## Expressions -/

mutual

theorem agrees_compile (hfresh : ctx.options.reuseSlots = false) : ∀ e : Expr,
    Agrees (compile ctx e) (compile (ctx.reusing reuse) e)
  | .constant v t => by
    rw [compile, compile]
    exact agrees_constantCode v t
  | .var v => by
    rw [compile, compile]
    exact agrees_variableCode v
  | .hostVar _ cell t => by
    rw [compile, compile]
    exact agrees_hostVarCode cell t
  | .default t => by
    rw [compile, compile]
    exact agrees_defaultCode t
  | .member o (.field f) => by
    rw [compile, compile]
    exact agrees_fieldCode (agrees_compile hfresh o)
  | .member o (.property p) => by
    rw [compile, compile]
    exact agrees_callOnCode (agrees_compile hfresh o) fun _ => .pure _
  | .call o m args => by
    rw [compile, compile]
    exact agrees_callOnCode (agrees_compile hfresh o) (agrees_compileArgs hfresh _ args)
  | .callStatic m args => by
    rw [compile, compile]
    exact agrees_callStaticCode (agrees_compileArgs hfresh _ args)
  | .new t c args => by
    rw [compile, compile]
    exact agrees_newCode (agrees_compileArgs hfresh _ args)
  | .init t c args members values => by
    rw [compile, compile]
    exact agrees_initCode (agrees_newCode (agrees_compileArgs hfresh _ args)) fun hpush =>
      steps_compileBindings hfresh t members values hpush
  | .convert _ (some m) _ => by
    rw [compile]
    exact .decline _ _
  | .convert e none t => by
    rw [compile, compile]
    exact agrees_convertCode (agrees_compile hfresh e)
  | .lambda id name params body result type => by
    rw [compile, compile]
    exact agrees_lambdaCode hfresh (agrees_compile hfresh body)
  | .cond c a b => by
    rw [compile, compile]
    exact agrees_condCode (agrees_compile hfresh c) (agrees_compile hfresh a) (agrees_compile hfresh b)
  | .binary _ _ _ (some m) _ => by
    rw [compile]
    exact .decline _ _
  | .binary op l r none t => by
    have hl := agrees_compile hfresh l
    have hr := agrees_compile hfresh r
    cases op <;> rw [compile, compile]
    case andAlso => exact agrees_logicalCode hl hr
    case orElse => exact agrees_logicalCode hl hr
    all_goals first
      | exact agrees_strictCode hl hr
      | nofun
  | .unary op e => by
    rw [compile, compile]
    exact agrees_unaryCode (agrees_compile hfresh e)
  | .assign target value => by
    have hvalue := agrees_compile hfresh value
    cases target with
    | var v =>
      rw [compile, compile]
      exact agrees_assignVarCode hvalue
    | hostVar _ cell t =>
      rw [compile, compile]
      exact agrees_assignHostCode hvalue
    | member o m =>
      rw [compile, compile]
      exact agrees_assignMemberCode (agrees_compile hfresh o) hvalue
    | index a i =>
      rw [compile, compile]
      exact agrees_assignIndexCode (agrees_compile hfresh a) (agrees_compile hfresh i) hvalue
    | _ =>
      simp only [compile]
      exact .decline _ _
  | .block id vars es => by
    rw [compile, compile]
    exact agrees_blockCode (agrees_compileAll hfresh es)
  | .apply f args _ => by
    rw [compile, compile]
    exact agrees_applyCode (agrees_compile hfresh f) (agrees_compileArgs hfresh _ args)
  | .newArray t n => by
    rw [compile, compile]
    exact agrees_newArrayCode (agrees_compile hfresh n)
  | .arrayOf t items => by
    rw [compile, compile]
    exact agrees_arrayOfCode (agrees_compileArgs hfresh _ items)
  | .index a i => by
    rw [compile, compile]
    exact agrees_indexCode (agrees_compile hfresh a) (agrees_compile hfresh i)
  | .length a => by
    rw [compile, compile]
    exact agrees_lengthCode (agrees_compile hfresh a)
  | .absent => by
    rw [compile]
    exact .fault _ _

theorem agrees_compileArgs (hfresh : ctx.options.reuseSlots = false) (kind : Kind) :
    ∀ (es : List Expr) (plans : List Plan),
      Agrees (compileArgs ctx kind es plans) (compileArgs (ctx.reusing reuse) kind es plans)
  | [], _ => by
    rw [compileArgs, compileArgs]
    exact .pure _
  | _ :: _, [] => by
    rw [compileArgs, compileArgs]
    exact .pure _
  | e :: es, p :: ps => by
    rw [compileArgs, compileArgs]
    exact (agrees_compile hfresh e).bind fun _ => (agrees_deliver p).bind fun _ => agrees_compileArgs hfresh kind es ps

theorem agrees_compileAll (hfresh : ctx.options.reuseSlots = false) : ∀ es : List Expr,
    Agrees (compileAll ctx es) (compileAll (ctx.reusing reuse) es)
  | [] => by
    rw [compileAll, compileAll]
    exact .pure _
  | e :: es => by
    rw [compileAll, compileAll]
    exact (agrees_compile hfresh e).bind fun _ => .ite
      (fun _ => (agrees_emit rfl _ _).bind fun _ => agrees_compileAll hfresh es) fun _ => agrees_compileAll hfresh es

theorem steps_compileBindings (hfresh : ctx.options.reuseSlots = false) (t : Ty) (members : List Member) :
    ∀ (es : List Expr) {w : Pairing} {push push' : Codegen Unit}, Steps w w push push' →
      Steps w w (compileBindings ctx t members es push) (compileBindings (ctx.reusing reuse) t members es push')
  | [], w, _, _, _ => by
    rw [compileBindings, compileBindings]
    exact Agrees.pure _ w
  | e :: es, w, _, _, hpush => by
    cases members with
    | nil =>
      rw [compileBindings, compileBindings]
      exact Agrees.pure _ w
    | cons m ms =>
      rw [compileBindings, compileBindings]
      exact hpush.bind fun _ => (agrees_storeMemberCode (agrees_compile hfresh e) w).bind fun _ =>
        steps_compileBindings hfresh t ms es hpush

end

end Codegen

/-! ## Artifacts -/

structure Artifact.Alike (a b : Artifact) : Prop where
  image : a.image.Alike b.image
  main : a.main.Alike a.image b.image b.main
  params : b.params = a.params
  result : b.result = a.result
  hostCells : b.hostCells = a.hostCells
  verify : b.verify = a.verify

namespace Compiler

variable {U : Universe} {options : Options} {l : Lambda} {shape : Shape} {a : Artifact}

abbrev contextOf (U : Universe) (options : Options) (l : Lambda) : Codegen.Context :=
  ⟨U, Captures.analyze U l options.inlineCaptures, options⟩

theorem compile_eq_ok : compile U options (some l) shape = .ok a ↔
    shape.params.length = l.params.length ∧ l.params.length ≤ Codegen.maxArgs ∧
      (Captures.analyze U l options.inlineCaptures).problem? l.id = none ∧
      ∃ main s, Codegen.function (contextOf U options l) none l shape (Codegen.compile (contextOf U options l) l.body)
          { function := Codegen.newFunction (contextOf U options l) l.rootName } = .ok main s ∧
        a = ⟨s.functions, main, shape.params, shape.result, s.hostCells.toList, options.verify⟩ := by
  unfold compile
  dsimp only
  split_ifs with hlength hparams
  · simp [hlength]
  · simp [Nat.not_le_of_lt hparams]
  rw [not_not] at hlength
  simp only [hlength, Nat.le_of_not_lt hparams, true_and]
  split
  · rename_i p hproblem
    simp [hproblem]
  · rename_i hproblem
    simp only [hproblem, true_and]
    split
    · rename_i main s hrun
      simp only [hrun, EStateM.Result.ok.injEq, Except.ok.injEq]
      constructor
      · rintro rfl
        exact ⟨main, s, ⟨rfl, rfl⟩, rfl⟩
      · rintro ⟨_, _, ⟨rfl, rfl⟩, rfl⟩
        rfl
    · rename_i e s hrun
      simp [hrun]

/-- **Slots used again.** Where compilation without it succeeds, so does compilation with it, and the
artifacts differ in slots only. -/
theorem compile_alike {root : Option Lambda} (hfresh : options.reuseSlots = false)
    (h : compile U options root shape = .ok a) (reuse : Bool) :
    ∃ b, compile U { options with reuseSlots := reuse } root shape = .ok b ∧ a.Alike b := by
  cases root with
  | none => cases h
  | some l =>
    obtain ⟨hlength, hparams, hproblem, f, s, hrun, rfl⟩ := compile_eq_ok.1 h
    have hempty : Image.Alike #[] #[] := ⟨rfl, fun h => by simp at h⟩
    have hfresh' : (contextOf U options l).options.reuseSlots = false := hfresh
    have hstart := Codegen.entering_start (s := { function := default })
      (t := { function := default }) hfresh' reuse hempty rfl rfl l.rootName
    have hnone : Codegen.ScopesAlike [] none none := .none
    obtain ⟨g, t, hrun', hdone⟩ := Codegen.follows_function hnone
      (Codegen.agrees_compile hfresh' l.body) hstart ⟨rfl, rfl⟩ hrun
    refine ⟨_, compile_eq_ok.2 ⟨hlength, hparams, hproblem, g, t, hrun', rfl⟩, ?_⟩
    exact ⟨hdone.image, hdone.function, rfl, rfl, by rw [hdone.hostCells], rfl⟩

end Compiler

end TreeMachine
