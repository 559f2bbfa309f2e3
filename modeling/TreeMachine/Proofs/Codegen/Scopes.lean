import TreeMachine.Proofs.Codegen.Nodes

/-!
# Code that declares variables

A variable gets a slot and its first value, and if closures share it, the value moves to a cell in the
slot. From then on the slot is known to hold the cell, and the variable is in scope. At the end of a
block its slots are given back, and nothing more is known than before the block.
-/

open List

namespace TreeMachine.Codegen

variable {ctx : Context} {r b : Bool} {strict : Prop} {P : Bindings → Prop} {kind : Kind} {s s' : CodegenState}
  {u : Unit} {caps : List Bool} {opened : List OpenJump} {known : SlotFacts} {slot id : Nat} {slots : Slots} {sl : Slot}
  {v : Var} {number : Option Nat} {t : Option Ty} {scope : Int}

/-! ## Facts about slots -/

theorem mem_learn_self (slot : Nat) (b : Bool) : (slot, b) ∈ known.learn slot b :=
  mem_cons_self

theorem mem_learn_of_ne {x : Nat × Bool} (hx : x ∈ known) (h : x.1 ≠ slot) : x ∈ known.learn slot b :=
  mem_cons_of_mem _ (mem_filter.2 ⟨hx, by simpa using h⟩)

theorem known_learn
    (hknown : ∀ x ∈ known, ∃ sl, slots.slots[x.1]? = some sl ∧ sl.live = true ∧ sl.capture = .byReference)
    (hs : slots.slots[slot]? = some sl) (hl : sl.live = true) (hc : sl.capture = .byReference) :
    ∀ x ∈ known.learn slot b, ∃ sl, slots.slots[x.1]? = some sl ∧ sl.live = true ∧ sl.capture = .byReference := by
  intro x hx
  rcases mem_cons.1 hx with rfl | hx
  · exact ⟨sl, hs, hl, hc⟩
  · exact hknown x (mem_filter.1 hx).1

theorem BindingValid.learn {x : Binding} (h : BindingValid slots caps known x)
    (hne : b = true ∨ ∀ y ∈ known, y.1 ≠ slot) : BindingValid slots caps (known.learn slot b) x := by
  unfold BindingValid at h ⊢
  cases hp : x.place with
  | slotCell =>
    simp only [hp] at h ⊢
    by_cases hx : x.index = slot
    · rcases hne with rfl | hne
      · rw [hx]
        exact mem_learn_self slot true
      · exact absurd hx (hne _ h)
    · exact mem_learn_of_ne h hx
  | slot | free | freeCell =>
    simp only [hp] at h ⊢
    exact h

/-! ## Variables -/

def modeOf (ctx : Context) (number : Option Nat) : CaptureMode :=
  (number.map ctx.captures.mode).getD .none

theorem Good.storeFirst (hg : Good r caps opened known true s)
    (h : Codegen.emit kind .storeLocal [slot] [] s = .ok u s') (hs : s.function.slots.slots[slot]? = some sl)
    (hl : sl.live = true) (hc : sl.capture = .byReference) (hne : ∀ y ∈ known, y.1 ≠ slot) :
    Good r caps opened (known.learn slot false) true s' := by
  obtain ⟨e, he⟩ := emit_eq_ok h
  obtain ⟨G, hG⟩ := hg.sound
  have hnew : Sound r caps opened (known.learn slot false) _ _ _ _ := hG.emit he.length he.effect
    he.push he.fits he.pop ⟨sl.capture, Slots.mode_eq hs⟩ rfl (List.Subset.refl _)
    (known_learn hG.known hs hl hc) fun x hx => (hG.env x hx).learn (.inr hne)
  rw [he.eq]
  exact ⟨hg.image, hg.depths, _, hnew⟩

theorem Good.makeCell (hg : Good r caps opened known true s)
    (h : Codegen.emit kind .makeCell [slot] [] s = .ok u s') (hs : s.function.slots.slots[slot]? = some sl)
    (hl : sl.live = true) (hc : sl.capture = .byReference) (hf : (slot, false) ∈ known) :
    Good r caps opened (known.learn slot true) true s' := by
  obtain ⟨e, he⟩ := emit_eq_ok h
  obtain ⟨G, hG⟩ := hg.sound
  have hnew : Sound r caps opened (known.learn slot true) _ _ _ _ := hG.emit he.length he.effect
    he.push he.fits he.pop ⟨hc ▸ Slots.mode_eq hs, hf⟩ rfl (List.Subset.refl _)
    (known_learn hG.known hs hl hc) fun x hx => (hG.env x hx).learn (.inl rfl)
  rw [he.eq]
  exact ⟨hg.image, hg.depths, _, hnew⟩

theorem Good.bind {b : Binding} (hg : Good r caps opened known true s)
    (hb : BindingValid s.function.slots caps known b) : Good r caps opened known true
      { s with function := { s.function with env := (id, b) :: s.function.env } } := by
  obtain ⟨G, hG⟩ := hg.sound
  refine ⟨hg.image, hg.depths, G, hG.change rfl rfl (.refl _) (.refl _) (.refl _) hG.slots
    (fun _ => rfl) (Nat.le_refl _) hG.max (List.Subset.refl _) hG.known fun x hx => ?_⟩
  rcases mem_cons.1 hx with rfl | hx
  · exact hb
  · exact hG.env x hx

def slotBinding (ctx : Context) (slot : Nat) (number : Option Nat) : Binding :=
  ⟨if modeOf ctx number = .byReference then .slotCell else .slot, slot, number⟩

structure Bound (x : Nat × Binding) (s s' : CodegenState) : Prop where
  env : s'.function.env = x :: s.function.env
  slots : s'.function.slots = s.function.slots
  functions : s'.functions = s.functions
  entries : Codegen.entries s' = Codegen.entries s

theorem runs_bindVariable (hs : s.function.slots.slots[slot]? = some sl) (hl : sl.live = true)
    (hc : sl.capture = modeOf ctx number) : Runs strict (bindVariable ctx kind v number slot) s fun _ s' =>
      Bound (v.id, slotBinding ctx slot number) s s' ∧ ∀ {caps opened known}, Good r caps opened known true s →
        (modeOf ctx number = .byReference → (slot, false) ∈ known) →
        ∃ known', (∀ x ∈ known, x.1 ≠ slot → x ∈ known') ∧ Good r caps opened known' true s' := by
  refine .ite (fun hm => ?_) fun hm => ?_
  · refine .bind (Q := fun u s₁ => emit kind .makeCell [slot] [] s = .ok u s₁)
      (.intro id fun _ => declines_emit (append_nil _).symm rfl rfl) fun {_ s₁} hcell => .of_ok rfl ?_
    obtain ⟨e, he⟩ := emit_eq_ok hcell
    have hpop : ([] : List StackEntry).length = e.pop := by
      rw [← Except.ok.inj he.effect]
      rfl
    refine ⟨⟨by rw [he.eq]; rfl, by rw [he.eq]; rfl, by rw [he.eq], ?_⟩, fun {caps opened known} hg hf => ?_⟩
    · have := he.entries (append_nil _).symm hpop
      rw [append_nil] at this
      exact this
    · have hcell := hg.makeCell hcell hs hl (hc.trans hm) (hf hm)
      refine ⟨_, fun x hx hne => mem_learn_of_ne hx hne, hcell.bind ?_⟩
      rw [if_pos hm]
      exact mem_learn_self slot true
  · refine .of_ok rfl ⟨⟨rfl, rfl, rfl, rfl⟩, fun {caps opened known} hg _ => ⟨known, fun _ hx _ => hx, hg.bind ?_⟩⟩
    rw [if_neg hm]
    exact ⟨sl, hs, hl, by rw [hc]; exact hm⟩

theorem runs_storeAndBind {base : List StackEntry} {e : StackEntry} (hb : entries s = base ++ [e])
    (hs : s.function.slots.slots[slot]? = some sl) (hl : sl.live = true) (hc : sl.capture = modeOf ctx number) :
    Runs strict (do
      emit kind .storeLocal [slot] []
      bindVariable ctx kind v number slot : Codegen Unit) s fun _ s' =>
      s'.function.env = (v.id, slotBinding ctx slot number) :: s.function.env ∧
      s'.function.slots = s.function.slots ∧ s'.functions = s.functions ∧ entries s' = base ∧
      ∀ {caps opened known}, Good r caps opened known true s → (∀ y ∈ known, y.1 ≠ slot) →
        ∃ known', known ⊆ known' ∧ Good r caps opened known' true s' := by
  refine .bind (Q := fun u s₁ => emit kind .storeLocal [slot] [] s = .ok u s₁)
    (.intro id fun _ => declines_emit hb rfl rfl) fun {_ s₁} hstore => ?_
  obtain ⟨eff, he⟩ := emit_eq_ok hstore
  have hslots : s₁.function.slots = s.function.slots := by
    rw [he.eq]
    rfl
  refine .imp (runs_bindVariable (r := r) (hslots ▸ hs) hl hc) fun {_ s₂} ⟨hbound, hgood⟩ => ?_
  refine ⟨by rw [hbound.env, he.eq]; rfl, hbound.slots.trans hslots, hbound.functions.trans (by rw [he.eq]), ?_,
    fun {caps opened known} hg hne => ?_⟩
  · have hpop : [e].length = eff.pop := by
      rw [← Except.ok.inj he.effect]
      rfl
    rw [hbound.entries, he.entries hb hpop, append_nil]
  · by_cases hm : modeOf ctx number = .byReference
    · -- the slot holds the plain value, then the cell
      obtain ⟨known', hsub, hg'⟩ := hgood (hg.storeFirst hstore hs hl (hc.trans hm) hne)
        fun _ => mem_learn_self slot false
      exact ⟨known', fun x hx => hsub x (mem_learn_of_ne hx (hne x hx)) (hne x hx), hg'⟩
    · have hplain : sl.capture ≠ .byReference := hc ▸ hm
      obtain ⟨G, hG⟩ := hg.sound
      have hstored : Turned r [default] [] s s₁ := turned_storeLocal hstore hG.slots hs hplain
      obtain ⟨known', hsub, hg'⟩ := hgood (hstored.good hg) fun h => absurd h hm
      exact ⟨known', fun x hx => hsub x hx (hne x hx), hg'⟩

/-! ## Declarations -/

inductive Binds (ctx : Context) (decl : Nat) : List Var → Bindings → Bindings → Prop
  | nil {env : Bindings} : Binds ctx decl [] env env
  | cons {v : Var} {vs : List Var} {slot : Nat} {env env' : Bindings} :
    Binds ctx decl vs ((v.id, slotBinding ctx slot (ctx.captures.number? decl v)) :: env) env' →
    Binds ctx decl (v :: vs) env env'

/-- Code that brought variables into scope, in slots of `scope`. -/
structure Introduced (r : Bool) (scope : Int) (s s' : CodegenState) : Prop where
  ok : s'.function.slots.Ok
  within : ∀ {a : Slots}, Slots.Within scope a s.function.slots → Slots.Within scope a s'.function.slots
  live : ∀ {i : Nat} {sl : Slot}, sl.live = true → s.function.slots.slots[i]? = some sl →
    s'.function.slots.slots[i]? = some sl
  functions : Array.Grows s'.functions s.functions
  entries : Codegen.entries s' = Codegen.entries s
  good : ∀ {caps opened known}, Good r caps opened known true s →
    ∃ known', known ⊆ known' ∧ Good r caps opened known' true s'

namespace Introduced

variable {scope : Int} {s'' : CodegenState}

theorem refl (hok : s.function.slots.Ok) : Introduced r scope s s where
  ok := hok
  within h := h
  live _ h := h
  functions := .refl _
  entries := rfl
  good hg := ⟨_, List.Subset.refl _, hg⟩

theorem trans (h : Introduced r scope s s') (h' : Introduced r scope s' s'') : Introduced r scope s s'' where
  ok := h'.ok
  within hw := h'.within (h.within hw)
  live hl hs := h'.live hl (h.live hl hs)
  functions := h'.functions.trans h.functions
  entries := h'.entries.trans h.entries
  good hg := by
    obtain ⟨known', hsub, hg'⟩ := h.good hg
    obtain ⟨known'', hsub', hg''⟩ := h'.good hg'
    exact ⟨known'', List.Subset.trans hsub hsub', hg''⟩

end Introduced

theorem Good.ne_of_allocated {m : CaptureMode} {b : Slots} (hg : Good r caps opened known true s)
    (hb : s.function.slots.Allocated t m scope slot b) : ∀ y ∈ known, y.1 ≠ slot := by
  intro y hy
  obtain ⟨G, hG⟩ := hg.sound
  obtain ⟨sl, hs, hl, -⟩ := hG.known y hy
  exact hb.ne_of_live hs hl

theorem runs_declareAll {block : Nat} {vs : List Var} (hok : s.function.slots.Ok)
    (hopen : s.function.slots.isOpen scope = true) : Runs strict (declareAll ctx block scope vs) s fun _ s' =>
      Introduced r scope s s' ∧ Binds ctx block vs s.function.env s'.function.env := by
  induction vs generalizing s with
  | nil => exact .pure ⟨.refl hok, .nil⟩
  | cons v vs ih =>
    refine .bind (runs_allocate hopen) fun {slot s₁} ⟨b, hb, hs₁⟩ => ?_
    subst hs₁
    have hb' := hok.allocated hb
    have hdefault : Yields r (fun _ => True) (some v.type) (defaultCode ctx .block v.type) := yields_defaultCode v.type
    refine hdefault.then ⟨hb', fun _ => trivial⟩ fun {a s₂} hdefault _ => ?_
    have hslot₂ := (hdefault.slots.live rfl).2 hb.slot
    refine .assoc (.bind (runs_storeAndBind (r := r) hdefault.top hslot₂ rfl rfl) fun {_ s₃} hbound => ?_)
    obtain ⟨henv, hslots, hfunctions, hentries, hgood⟩ := hbound
    have hone : Introduced r scope s s₃ := by
      refine ⟨hslots ▸ hdefault.ok, fun hw => ?_, fun hl hs => ?_, ?_, hentries, fun {caps opened known} hg => ?_⟩
      · rw [hslots]
        exact (hw.allocated hb).restored hdefault.slots
      · rw [hslots]
        exact (hdefault.slots.live hl).2 (hb.live hs hl)
      · rw [hfunctions]
        exact hdefault.functions
      · have hg₁ := hg.slots hb.kept hb' fun hl hs => hb.live hs hl
        exact hgood (hdefault.good hg₁) (hg.ne_of_allocated hb)
    refine .imp (ih (hslots ▸ hdefault.ok) ?_) fun ⟨hrest, hbinds⟩ => ⟨hone.trans hrest, ?_⟩
    · rw [Slots.isOpen, hslots, hdefault.slots.inner, hdefault.slots.outer, hb.inner, hb.outer]
      exact hopen
    · rw [henv, hdefault.env] at hbinds
      exact .cons hbinds

/-- **A block** leaves the value of its body, which is compiled in the scope of its variables; at the end they go out
of scope. -/
theorem yields_blockCode {Q : Bindings → Prop} {vars : List Var} {body : Codegen Unit}
    (hscope : ∀ env env', P env → Binds ctx id vars env env' → Q env') (hbody : Yields r Q t body) :
    Yields r P t (blockCode ctx id vars body) := by
  intro strict s hs
  refine .checkProblem (.get_bind (.bind_of_ok (x := openScope) rfl ?_))
  refine .bind (runs_declareAll (r := r) hs.ok.openScope ?_) fun {_ s₂} hdeclared => ?_
  · simp [Slots.isOpen]
  obtain ⟨hdeclare, hbinds⟩ := hdeclared
  refine .bind (hbody ⟨hdeclare.ok, fun h => hscope _ _ (hs.env h) hbinds⟩) fun {_ s₃} hleaves => ?_
  obtain ⟨es, hes, hrun⟩ := hleaves
  have hopened := Slots.Within.openScope s.function.slots
  have hwithin := (hdeclare.within hopened).restored hrun.slots
  refine .bind (runs_release hwithin.inner) fun hreleased => ?_
  obtain ⟨c, hc, rfl⟩ := hreleased
  have hrestored := hwithin.release hs.ok hc
  refine .of_ok rfl ⟨es, hes, ⟨hrun.ok.release hc, rfl, hrestored, hrun.functions.trans hdeclare.functions, ?_⟩,
    fun {caps opened known} hg => ?_⟩
  · intro base hb
    have hentries : entries s₂ = base := by
      rw [hdeclare.entries]
      exact hb.trans (append_nil _)
    show entries s₃ = base ++ es
    rw [hrun.top, hentries]
  · have hg₁ := hg.slots hopened.toKept hs.ok.openScope fun _ hs => hs
    obtain ⟨known', hsub, hg₂⟩ := hdeclare.good hg₁
    have hclosed := hg.close (hrun.good hg₂) hsub hc hrestored
    exact hclosed

end TreeMachine.Codegen
