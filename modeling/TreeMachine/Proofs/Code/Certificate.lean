import TreeMachine.Proofs.Code.Layout

/-!
# Certified functions

A certificate of a function is a layout of its code in which the points agree: what is known before an
instruction follows from what is known before each instruction that can run just before it, be it the
one in front of it or a jump. It is what a verifier of the code would compute.

The depth of the operand stack takes part in a certificate, and so does which slots hold cells: a slot
may hold a value first and the cell of its variable later.
-/

namespace TreeMachine

/-! ## Operands -/

/-- A captured variable is found where the closure looks for it: `mode` gives the way of capture of
the slots of the enclosing function, `caps` which of its captures are cells. -/
def Capture.Found (mode : Nat → Option CaptureMode) (caps : List Bool) (facts : SlotFacts) (k : Capture) : Prop :=
  ∃ i : Nat, k.index = i ∧
    match k.source with
    | .slot => (∃ m, mode i = some m ∧ m ≠ .byReference) ∧ k.byRef = false
    | .slotCell => (∃ m, mode i = some m) ∧ (i, true) ∈ facts ∧ k.byRef = true
    | .free => caps[i]? = some false ∧ k.byRef = false
    | .freeCell => caps[i]? = some true ∧ k.byRef = true
    | .absent => False

/-- The operands of an instruction refer to what the instruction expects. -/
def Point.Valid (image : Image) (constants : Array Constant) (mode : Nat → Option CaptureMode)
    (caps : List Bool) (p : Point) : Prop :=
  match p.op, p.operands with
  | .loadLocal, [s] => ∃ m, mode s = some m ∧ m ≠ .byReference
  | .storeLocal, [s] => ∃ m, mode s = some m
  | .makeCell, [s] => mode s = some .byReference ∧ (s, false) ∈ p.facts
  | .loadCell, [s] | .storeCell, [s] => (∃ m, mode s = some m) ∧ (s, true) ∈ p.facts
  | .loadFree, [i] => caps[i]? = some false
  | .loadFreeCell, [i] | .storeFreeCell, [i] => caps[i]? = some true
  | .const, [i] => ∃ v, constants[i]? = some (.value v)
  | .loadHost, [i] | .storeHost, [i] => ∃ loc, constants[i]? = some (.cell loc)
  | .newAggregate, [i] | .newObject, [i] | .box, [i] | .unbox, [i] | .cast, [i] | .retag, [i]
  | .newArray, [i] | .arrayOf, [i, _] => ∃ t, constants[i]? = some (.type t)
  | .call, [i] => ∃ m, constants[i]? = some (.method m)
  | .callVirtual, [i] | .callInterface, [i] =>
    ∃ m, constants[i]? = some (.method m) ∧ m.isStatic = false
  | .closure, [i] => ∃ j fn, constants[i]? = some (.function j) ∧ image[j]? = some fn ∧
    ∀ k ∈ fn.captures, k.Found mode caps p.facts
  | .invoke, [_, r] => r ≤ 1
  | _, _ => True

/-! ## Flow of control -/

/-- Control arrives at offset `o`, with a stack of depth `d` and with `facts`, at a point that claims
to know no more. -/
def Lands (G : Nat → Option Point) (o d : Nat) (facts : SlotFacts) : Prop :=
  ∃ q, G o = some q ∧ q.depth = d ∧ q.facts ⊆ facts

structure Function.Certified (image : Image) (f : Function) (mode : Nat → Option CaptureMode)
    (G : Nat → Option Point) : Prop where
  layout : Layout f.chunk G
  effect : ∀ {o p}, G o = some p → Effect.of p.op p.operands f.chunk.constants = .ok p.effect
  enough : ∀ {o p}, G o = some p → p.effect.pop ≤ p.depth
  valid : ∀ {o p}, G o = some p →
    p.Valid image f.chunk.constants mode (f.captures.map (·.byRef))
  falls : ∀ {o p}, G o = some p → p.falls = true → Lands G (o + p.op.size) p.after p.factsAfter
  jumps : ∀ {o p}, G o = some p → p.jumps = true → Lands G (p.target o) p.after p.factsAfter
  /-- A call starts with an empty stack and with plain values in the slots. -/
  entry : ∃ p, G 0 = some p ∧ p.depth = 0 ∧ ∀ x ∈ p.facts, x.2 = false
  last : ∃ o p, G o = some p ∧ (p.op = .ret ∨ p.op = .retVoid) ∧ o + p.op.size = f.chunk.code.size
  slots : ∀ {s m}, mode s = some m → (s : Int) < f.locals
  depth : ∀ {o p}, G o = some p → (p.depth : Int) ≤ f.maxStack

def Image.Certified (image : Image) : Prop :=
  ∀ f ∈ image, ∃ mode G, f.Certified image mode G

/-! ## Growth

While code is compiled, constants, slots and finished functions are added. What operands refer to
stays what it is. -/

def Array.Grows {α : Type} (a b : Array α) : Prop :=
  ∀ (i : Nat) (x : α), b[i]? = some x → a[i]? = some x

variable {α : Type}

theorem Array.Grows.refl (a : Array α) : Array.Grows a a := fun _ _ h => h

theorem Array.Grows.trans {a b c : Array α} (h : Array.Grows a b) (h' : Array.Grows b c) :
    Array.Grows a c := fun i x hx => h i x (h' i x hx)

theorem Array.grows_push (a : Array α) (x : α) : Array.Grows (a.push x) a := by
  intro i y hy
  have hlt : i < a.size := (Array.getElem?_eq_some_iff.1 hy).1
  rw [Array.getElem?_push, if_neg (Nat.ne_of_lt hlt), hy]

variable {mode mode' : Nat → Option CaptureMode} {caps : List Bool}

theorem Capture.Found.mono {facts : SlotFacts} {k : Capture} (h : k.Found mode caps facts)
    (hm : ∀ s m, mode s = some m → mode' s = some m) : k.Found mode' caps facts := by
  obtain ⟨i, hi, h⟩ := h
  refine ⟨i, hi, ?_⟩
  cases hs : k.source with
  | slot =>
    simp only [hs] at h
    obtain ⟨⟨m, hmi, hne⟩, hb⟩ := h
    exact ⟨⟨m, hm i m hmi, hne⟩, hb⟩
  | slotCell =>
    simp only [hs] at h
    obtain ⟨⟨m, hmi⟩, hf, hb⟩ := h
    exact ⟨⟨m, hm i m hmi⟩, hf, hb⟩
  | free | freeCell => simpa only [hs] using h
  | absent => simp only [hs] at h

variable {image image' : Image} {ks ks' : Array Constant}

theorem Point.Valid.mono {p : Point} (h : p.Valid image ks mode caps) (hi : Array.Grows image' image)
    (hk : Array.Grows ks' ks) (hm : ∀ s m, mode s = some m → mode' s = some m) : p.Valid image' ks' mode' caps := by
  unfold Point.Valid at h ⊢
  split at h
  -- the entries of the pool stay where they are
  any_goals exact Exists.imp (fun _ hv => hk _ _ hv) h
  · obtain ⟨m, hs, hne⟩ := h
    exact ⟨m, hm _ _ hs, hne⟩
  · obtain ⟨m, hs⟩ := h
    exact ⟨m, hm _ _ hs⟩
  · exact ⟨hm _ _ h.1, h.2⟩
  · obtain ⟨⟨m, hs⟩, hf⟩ := h
    exact ⟨⟨m, hm _ _ hs⟩, hf⟩
  · obtain ⟨⟨m, hs⟩, hf⟩ := h
    exact ⟨⟨m, hm _ _ hs⟩, hf⟩
  · exact h
  · exact h
  · exact h
  · exact h.imp fun _ hv => ⟨hk _ _ hv.1, hv.2⟩
  · exact h.imp fun _ hv => ⟨hk _ _ hv.1, hv.2⟩
  · obtain ⟨j, fn, hj, hfn, hc⟩ := h
    exact ⟨j, fn, hk _ _ hj, hi _ _ hfn, fun k hk' => (hc k hk').mono hm⟩
  · exact h
  · trivial

theorem Effect.of_mono {op : Opcode} {vs : List Nat} {e : Effect} (h : Effect.of op vs ks = .ok e)
    (hk : Array.Grows ks' ks) : Effect.of op vs ks' = .ok e := by
  unfold Effect.of at h ⊢
  split at h
  any_goals exact h
  all_goals
    split at h
    · rename_i m hm
      rw [hk _ _ hm]
      exact h
    · cases h
    · cases h

variable {f : Function}

theorem Function.Certified.mono {G : Nat → Option Point} (h : f.Certified image mode G)
    (hi : Array.Grows image' image) : f.Certified image' mode G :=
  { h with valid := fun hp => (h.valid hp).mono hi (.refl _) fun _ _ hm => hm }

theorem Image.Certified.push (h : Image.Certified image) (hf : ∃ mode G, f.Certified image mode G) :
    Image.Certified (image.push f) := by
  intro g hg
  rcases Array.mem_push.1 hg with hg | rfl
  · obtain ⟨mode, G, hc⟩ := h g hg
    exact ⟨mode, G, hc.mono (Array.grows_push _ _)⟩
  · obtain ⟨mode, G, hc⟩ := hf
    exact ⟨mode, G, hc.mono (Array.grows_push _ _)⟩

end TreeMachine
