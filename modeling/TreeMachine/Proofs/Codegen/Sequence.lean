import TreeMachine.Proofs.Codegen.Invariant

/-!
# Sequences of code

`Turned r before after s s'` says what a piece of code does to the state of a compilation: the
entries `before` on top of the modeled stack give way to `after`, the environment, the open scopes and
the live slots are as before, and the invariant is kept. Pieces follow each other (`Turned.trans`) and
leave alone what is below (`Turned.frame`), so the code of a node is described by what its parts do.

The primitive pieces are described here: instructions, constants and changes of the slots.
-/

namespace TreeMachine.Codegen

open TreeMachine.EStateM

variable {p : Point} {caps : List Bool} {opened : List OpenJump} {known : SlotFacts} {reached : Bool} {op : Opcode}
  {vs : List Nat} {rs : List StackEntry} {slot : Nat} {sl : Slot} {e : StackEntry} {scope : Int}

/-- What a piece of code did beside the code: the entries `before` on top of the stack gave way to
`after`. -/
structure Moved (before after : List StackEntry) (s s' : CodegenState) : Prop where
  ok : s'.function.slots.Ok
  env : s'.function.env = s.function.env
  slots : s.function.slots.Restored s'.function.slots
  functions : Array.Grows s'.functions s.functions
  entries : ∀ base, Codegen.entries s = base ++ before → Codegen.entries s' = base ++ after

/-- A piece of code that turned the entries `before` on top of the stack into `after`. -/
structure Turned (r : Bool) (before after : List StackEntry) (s s' : CodegenState) : Prop
    extends Moved before after s s' where
  good : ∀ {caps : List Bool} {opened : List OpenJump} {known : SlotFacts},
    Good r caps opened known true s → Good r caps opened known true s'

variable {r : Bool} {before middle after pushed : List StackEntry} {s s' s'' : CodegenState}

namespace Moved

theorem refl (es : List StackEntry) (hok : s.function.slots.Ok) : Moved es es s s where
  ok := hok
  env := rfl
  slots := .refl _
  functions := .refl _
  entries _ h := h

theorem trans (h : Moved before middle s s') (h' : Moved middle after s' s'') : Moved before after s s'' where
  ok := h'.ok
  env := h'.env.trans h.env
  slots := h.slots.trans h'.slots
  functions := h'.functions.trans h.functions
  entries base hb := h'.entries base (h.entries base hb)

theorem frame (h : Moved before after s s') (below : List StackEntry) :
    Moved (below ++ before) (below ++ after) s s' :=
  { h with
    entries := fun base hb => by
      rw [← List.append_assoc] at hb ⊢
      exact h.entries _ hb }

theorem top (h : Moved [] after s s') : Codegen.entries s' = Codegen.entries s ++ after :=
  h.entries _ (by simp)

theorem split {e : StackEntry} (h : Moved [] (e :: after) s s') :
    Codegen.entries s' = (Codegen.entries s ++ [e]) ++ after := by
  rw [h.top, List.append_assoc]
  rfl

end Moved

namespace Turned

theorem refl (es : List StackEntry) (hok : s.function.slots.Ok) : Turned r es es s s :=
  ⟨.refl es hok, fun hg => hg⟩

theorem trans (h : Turned r before middle s s') (h' : Turned r middle after s' s'') : Turned r before after s s'' :=
  ⟨h.toMoved.trans h'.toMoved, fun hg => h'.good (h.good hg)⟩

theorem frame (h : Turned r before after s s') (below : List StackEntry) :
    Turned r (below ++ before) (below ++ after) s s' :=
  ⟨h.toMoved.frame below, h.good⟩

theorem push (h : Turned r before after s s') (h' : Turned r [] pushed s' s'') :
    Turned r before (after ++ pushed) s s'' :=
  h.trans (by simpa using h'.frame after)

end Turned

def EntriesOf : Option Ty → List StackEntry → Prop
  | some t, es => ∃ a, es = [⟨some t, a⟩]
  | none, es => es = []

variable {kind : Kind} {u : Unit}

/-! ## Instructions -/

/-- Instructions that lead to the next one and learn nothing about slots. -/
def isOrdinary : Opcode → Bool
  | .storeLocal | .makeCell | .jump | .jumpIfFalse | .ret | .retVoid => false
  | _ => true

theorem falls_of_isOrdinary (h : isOrdinary p.op = true) : p.falls = true := by
  unfold Point.falls
  split
  all_goals simp_all [isOrdinary]

theorem jumps_of_isOrdinary (h : isOrdinary p.op = true) : p.jumps = false := by
  unfold Point.jumps
  split
  all_goals simp_all [isOrdinary]

theorem factsAfter_of_isOrdinary (h : isOrdinary p.op = true) : p.factsAfter = p.facts := by
  unfold Point.factsAfter
  split
  all_goals simp_all [isOrdinary]

theorem Good.emit (hg : Good r caps opened known reached s)
    {e : Effect} (h : Emitted op vs rs e s s') (hop : isOrdinary op = true)
    (hv : (nextPoint s.function known op vs e).Valid s.functions s.function.chunk.constants
      s.function.slots.mode caps) : Good r caps opened known true s' := by
  obtain ⟨G, hG⟩ := hg.sound
  have hp : isOrdinary (nextPoint s.function known op vs e).op = true := hop
  have hnew : Sound r caps opened known _ _ _ _ := hG.emit h.length h.effect h.push h.fits h.pop hv
    (by rw [jumps_of_isOrdinary hp]; rfl)
    (by rw [factsAfter_of_isOrdinary hp]; exact List.Subset.refl _) hG.known hG.env
  rw [falls_of_isOrdinary hp] at hnew
  rw [h.eq]
  exact ⟨hg.image, hg.depths, _, hnew⟩

theorem Emitted.moved {e : Effect}
    (h : Emitted op vs rs e s s') (hok : s.function.slots.Ok) (hpop : before.length = e.pop) :
    Moved before rs s s' where
  ok := by rw [h.eq]; exact hok
  env := by rw [h.eq]; rfl
  slots := by rw [h.eq]; exact .refl _
  functions := by rw [h.eq]; exact .refl _
  entries _ hb := h.entries hb hpop

theorem turned_emit {before : List StackEntry}
    (h : emit kind op vs rs s = .ok u s') (hok : s.function.slots.Ok) (hop : isOrdinary op = true)
    (hpop : ∀ {e}, Effect.of op vs s.function.chunk.constants = .ok e → before.length = e.pop)
    (hv : ∀ {caps opened known e}, Good r caps opened known true s →
      (nextPoint s.function known op vs e).Valid s.functions s.function.chunk.constants
        s.function.slots.mode caps) : Turned r before rs s s' := by
  obtain ⟨e, he⟩ := emit_eq_ok h
  exact ⟨he.moved hok (hpop he.effect), fun hg => hg.emit he hop (hv hg)⟩

/-! ## Constants -/

theorem turned_constant {k : Constant} {i : Nat} (h : constant kind k s = .ok i s') (hok : s.function.slots.Ok) :
    Turned r [] [] s s' ∧ s'.function.chunk.constants[i]? = some k := by
  obtain ⟨ks, rfl, hi, hor⟩ := constant_eq_ok h
  refine ⟨⟨⟨hok, rfl, .refl _, .refl _, fun _ hb => hb⟩, fun {caps opened known} hg => ?_⟩, hi⟩
  obtain ⟨G, hG⟩ := hg.sound
  refine ⟨hg.image, hg.depths, G, hG.change rfl rfl ?_ (.refl _) (.refl _) hG.slots (fun _ => rfl)
    (Nat.le_refl _) hG.max (List.Subset.refl _) hG.known hG.env⟩
  rcases hor with rfl | rfl
  · exact .refl _
  · exact Array.grows_push _ _

/-! ## Slots -/

theorem subset_learn (h : ∀ x ∈ known, x.1 ≠ slot) (b : Bool) : known ⊆ known.learn slot b := by
  intro x hx
  refine List.mem_cons_of_mem _ (List.mem_filter.2 ⟨hx, ?_⟩)
  simpa using h x hx

theorem Sound.ne_of_capture {image : Image} {f : FunctionState} {G : Nat → Option Point}
    (h : Sound r caps opened known reached image f G)
    (hs : f.slots.slots[slot]? = some sl) (hc : sl.capture ≠ .byReference) : ∀ x ∈ known, x.1 ≠ slot := by
  rintro x hx rfl
  obtain ⟨sl', hs', -, hc'⟩ := h.known x hx
  rw [hs] at hs'
  cases hs'
  exact hc hc'

theorem turned_storeTo (h : emit kind .storeLocal [slot] [] s = .ok u s') (hok : s.function.slots.Ok)
    (hs : ∀ {caps opened known}, Good r caps opened known true s →
      ∃ sl, s.function.slots.slots[slot]? = some sl ∧ sl.capture ≠ .byReference) : Turned r [e] [] s s' := by
  obtain ⟨eff, he⟩ := emit_eq_ok h
  have heff : eff = ⟨1, 0⟩ := by
    have := he.effect
    cases this
    rfl
  subst heff
  refine ⟨he.moved hok rfl, fun {caps opened known} hg => ?_⟩
  obtain ⟨G, hG⟩ := hg.sound
  obtain ⟨sl, hs, hc⟩ := hs hg
  have hnew : Sound r caps opened known _ _ _ _ := hG.emit he.length he.effect he.push he.fits he.pop
    ⟨sl.capture, Slots.mode_eq hs⟩ rfl (subset_learn (hG.ne_of_capture hs hc) false) hG.known hG.env
  rw [he.eq]
  exact ⟨hg.image, hg.depths, _, hnew⟩

theorem turned_storeLocal (h : emit kind .storeLocal [slot] [] s = .ok u s') (hok : s.function.slots.Ok)
    (hs : s.function.slots.slots[slot]? = some sl) (hc : sl.capture ≠ .byReference) : Turned r [e] [] s s' :=
  turned_storeTo h hok fun _ => ⟨sl, hs, hc⟩

theorem turned_loadLocal (h : emit kind .loadLocal [slot] [e] s = .ok u s') (hok : s.function.slots.Ok)
    (hs : s.function.slots.slots[slot]? = some sl) (hc : sl.capture ≠ .byReference) : Turned r [] [e] s s' :=
  turned_emit h hok rfl (fun he => by cases he; rfl) fun _ => ⟨sl.capture, Slots.mode_eq hs, hc⟩

theorem BindingValid.mono {a b : Slots} {x : Binding} (h : BindingValid a caps known x)
    (hlive : ∀ {i : Nat} {sl : Slot}, sl.live = true → a.slots[i]? = some sl → b.slots[i]? = some sl) :
    BindingValid b caps known x := by
  unfold BindingValid at h ⊢
  split at h
  · obtain ⟨sl, hs, hl, hc⟩ := h
    exact ⟨sl, hlive hl hs, hl, hc⟩
  all_goals exact h

theorem Good.slots (hg : Good r caps opened known reached s) {b : Slots} (hkept : s.function.slots.Kept b) (hok : b.Ok)
    (hlive : ∀ {i : Nat} {sl : Slot}, sl.live = true → s.function.slots.slots[i]? = some sl → b.slots[i]? = some sl) :
    Good r caps opened known reached { s with function := { s.function with slots := b } } := by
  obtain ⟨G, hG⟩ := hg.sound
  refine ⟨hg.image, hg.depths, G, hG.change rfl rfl (.refl _) (.refl _) hkept hok (fun _ => rfl)
    (Nat.le_refl _) hG.max (List.Subset.refl _) (fun x hx => ?_) fun x hx => (hG.env x hx).mono hlive⟩
  obtain ⟨sl, hs, hl, hc⟩ := hG.known x hx
  exact ⟨sl, hlive hl hs, hl, hc⟩

theorem slotError_ne_ok {α : Type} {e : SlotError} {a : α} : slotError kind e s ≠ .ok a s' := by
  cases e <;> exact throw_ne_ok

theorem openScope_eq_ok (h : openScope s = .ok scope s') : scope = s.function.slots.openScope.1 ∧
      s' = { s with function := { s.function with slots := s.function.slots.openScope.2 } } := by
  obtain ⟨rfl, rfl⟩ := modifyGet_eq_ok.1 h
  exact ⟨rfl, rfl⟩

theorem allocate_eq_ok {t : Option Ty} {name : String} {m : CaptureMode} {i : Nat}
    (h : allocate kind t name m scope s = .ok i s') : ∃ b, s.function.slots.allocate t name m scope = .ok (i, b) ∧
      s' = { s with function := { s.function with slots := b } } := by
  obtain ⟨t', t'', hget, hmatch⟩ := bind_eq_ok.1 h
  obtain ⟨rfl, rfl⟩ := get_eq_ok.1 hget
  cases ha : s.function.slots.allocate t name m scope with
  | error e =>
    simp only [ha] at hmatch
    exact (slotError_ne_ok hmatch).elim
  | ok p =>
    obtain ⟨j, b⟩ := p
    simp only [ha] at hmatch
    obtain ⟨v, t, hmod, hpure⟩ := bind_eq_ok.1 hmatch
    obtain rfl := modify_eq_ok.1 hmod
    obtain ⟨rfl, rfl⟩ := pure_eq_ok.1 hpure
    exact ⟨b, rfl, rfl⟩

theorem release_eq_ok (h : release kind scope s = .ok u s') : ∃ b, s.function.slots.release scope = .ok b ∧
      s' = { s with function := { s.function with slots := b } } := by
  obtain ⟨t', t'', hget, hmatch⟩ := bind_eq_ok.1 h
  obtain ⟨rfl, rfl⟩ := get_eq_ok.1 hget
  cases hr : s.function.slots.release scope with
  | error e =>
    simp only [hr] at hmatch
    exact (slotError_ne_ok hmatch).elim
  | ok b =>
    simp only [hr] at hmatch
    obtain rfl := modify_eq_ok.1 hmatch
    exact ⟨b, rfl, rfl⟩

/-- At the end of a scope its slots are taken back, and what was known before the scope is known again,
of the variables that were in scope before. -/
theorem Good.close {known' : SlotFacts}
    {c : Slots} (hg : Good r caps opened known true s) (hg' : Good r caps opened known' true s')
    (hsub : known ⊆ known') (hc : s'.function.slots.release scope = .ok c) (hrestored : s.function.slots.Restored c) :
    Good r caps opened known true { s' with function := { s'.function with slots := c, env := s.function.env } } := by
  obtain ⟨G, hG⟩ := hg.sound
  obtain ⟨G', hG'⟩ := hg'.sound
  refine ⟨hg'.image, hg'.depths, G', hG'.change rfl rfl (.refl _) (.refl _) (Slots.kept_of_release hc)
    (hG'.slots.release hc) (fun _ => rfl) (Nat.le_refl _) hG'.max hsub (fun x hx => ?_) fun x hx => ?_⟩
  · obtain ⟨sl, hs, hl, hcap⟩ := hG.known x hx
    exact ⟨sl, (hrestored.live hl).2 hs, hl, hcap⟩
  · exact (hG.env x hx).mono fun hl hs => (hrestored.live hl).2 hs

end TreeMachine.Codegen
