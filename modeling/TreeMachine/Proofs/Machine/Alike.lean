import TreeMachine.Proofs.Codegen.LockstepFunctions
import TreeMachine.Proofs.Machine.Forward

/-!
# Running renamed code

Two frames in code with renamed slots go through the same offsets with the same operand stacks. Closures that
they make are of renamed functions again, so stores differ in such delegates only.

* **`Frame.Alike`** relates the frames, and `Frame.Alike.fetch` says what they execute and how they go on.
* **`Machine.agrees_run`** and `Machine.agrees_callClosure` carry this through whole calls.
* **`Artifact.same_call`** is what a host sees of it.
-/

open List

namespace TreeMachine

open Correspondence (Relates)
open TreeMachine.Frame Store
open Exec (Same)

/-! ## Fetching in both -/

namespace Fetch

variable {α β γ δ : Type} {R : α → β → Prop} {S : γ → δ → Prop} {c d : Chunk} {o o₁ o₂ n m : Nat} {x : Fetch α}
  {y : Fetch β}

/-- Reading from offset `o` on gives related results and ends at `o₁` in both cases, or fails in the same way. -/
def Both (o o₁ : Nat) (R : α → β → Prop) (x : Fetch α) (y : Fetch β) : Prop :=
  (∃ e, x o = .error e ∧ y o = .error e) ∨ ∃ a b, x o = .ok (a, o₁) ∧ y o = .ok (b, o₁) ∧ R a b

theorem Both.pure {a : α} {b : β} (h : R a b) : Both o o R (pure a) (pure b) := .inr ⟨a, b, rfl, rfl, h⟩

theorem Both.throw (e : FetchFault) : Both o o₁ R (throw e) (throw e) := .inl ⟨e, rfl, rfl⟩

theorem Both.bind {f : α → Fetch γ} {g : β → Fetch δ} (h : Both o o₁ R x y)
    (hf : ∀ a b, R a b → Both o₁ o₂ S (f a) (g b)) : Both o o₂ S (x >>= f) (y >>= g) := by
  rcases h with ⟨e, hx, hy⟩ | ⟨a, b, hx, hy, hab⟩
  · exact .inl ⟨e, by simp only [Bind.bind, StateT.bind, hx, Except.bind],
      by simp only [Bind.bind, StateT.bind, hy, Except.bind]⟩
  · unfold Both
    rw [bind_of_ok hx, bind_of_ok hy]
    exact hf a b hab

theorem Both.map {f : α → γ} {g : β → δ} (h : Both o o₁ R x y) (hf : ∀ a b, R a b → S (f a) (g b)) :
    Both o o₁ S (f <$> x) (g <$> y) :=
  h.bind fun a b hab => .pure (hf a b hab)

theorem Both.seq {ε ζ : Type} {T : ε → ζ → Prop} {x' : Fetch γ} {y' : Fetch δ} {f : α → γ → ε} {g : β → δ → ζ}
    (h : Both o o₁ R x y) (h' : Both o₁ o₂ S x' y') (hf : ∀ a b, R a b → ∀ a' b', S a' b' → T (f a a') (g b b')) :
    Both o o₂ T (f <$> x <*> x') (g <$> y <*> y') := by
  show Both o o₂ T ((f <$> x) >>= fun k => k <$> x') ((g <$> y) >>= fun k => k <$> y')
  exact (h.map (S := fun k l => ∀ a' b', S a' b' → T (k a') (l b')) hf).bind fun k l hkl => h'.map hkl

theorem both_byte (hc : c.byte? o = some n) (hd : d.byte? o = some m) :
    Both o (o + 1) (fun a b => a = n ∧ b = m) (byte c) (byte d) :=
  .inr ⟨n, m, byte_eq_ok hc, byte_eq_ok hd, rfl, rfl⟩

theorem both_pair (hc : c.pair? o = some n) (hd : d.pair? o = some m) :
    Both o (o + 2) (fun a b => a = n ∧ b = m) (pair c) (pair d) :=
  .inr ⟨n, m, pair_eq_ok hc, pair_eq_ok hd, rfl, rfl⟩

theorem both_target (hc : c.pair? o = some n) (hd : d.pair? o = some n) :
    Both o (o + 2) (fun a b => a = o + 2 + n ∧ b = o + 2 + n) (target c) (target d) :=
  .inr ⟨_, _, target_eq_ok hc, target_eq_ok hd, rfl, rfl⟩

section Constants

variable (hk : d.constants = c.constants) (hc : c.pair? o = some n) (hd : d.pair? o = some n)
include hk hc hd

theorem both_constant : Both o (o + 2) (fun a b => b = a ∧ c.constants[n]? = some a) (constant c) (constant d) := by
  refine (both_pair hc hd).bind ?_
  rintro i j ⟨hi, hj⟩
  rw [hi, hj, hk]
  cases c.constants[n]? with
  | none => exact .throw _
  | some k => exact .pure ⟨rfl, rfl⟩

theorem both_type : Both o (o + 2) Eq (type c) (type d) := by
  refine (both_constant hk hc hd).bind ?_
  rintro _ k ⟨rfl, -⟩
  cases k <;> first | exact .pure rfl | exact .throw _

theorem both_method : Both o (o + 2) Eq (method c) (method d) := by
  refine (both_constant hk hc hd).bind ?_
  rintro _ k ⟨rfl, -⟩
  cases k <;> first | exact .pure rfl | exact .throw _

theorem both_cell : Both o (o + 2) Eq (cell c) (cell d) := by
  refine (both_constant hk hc hd).bind ?_
  rintro _ k ⟨rfl, -⟩
  cases k <;> first | exact .pure rfl | exact .throw _

end Constants

end Fetch

/-- Two instructions that differ in slots only, where the pairs in `known` agree before them; those in the
second list agree after them. -/
inductive Instruction.Renames (image image' : Image) (n m : Nat) (known : SlotPairs) :
    SlotPairs → Instruction → Instruction → Prop
  | same {i : Instruction} (h : i.usesSlots = false) : Renames image image' n m known known i i
  | loadLocal {a b : Nat} (h : (a, b) ∈ known) :
    Renames image image' n m known known (.loadLocal a) (.loadLocal b)
  | loadCell {a b : Nat} (h : (a, b) ∈ known) : Renames image image' n m known known (.loadCell a) (.loadCell b)
  | storeCell {a b : Nat} (h : (a, b) ∈ known) :
    Renames image image' n m known known (.storeCell a) (.storeCell b)
  | storeLocal {a b : Nat} (ha : a < n) (hb : b < m) :
    Renames image image' n m known (known.learn a b) (.storeLocal a) (.storeLocal b)
  | makeCell {a b : Nat} (h : (a, b) ∈ known) :
    Renames image image' n m known (known.learn a b) (.makeCell a) (.makeCell b)
  | closure {k : Nat} {f g : Function} (hf : image[k]? = some f) (hg : image'[k]? = some g)
    (h : List.Forall₂ (Capture.Alike known) f.captures g.captures) :
    Renames image image' n m known known (.closure k) (.closure k)

/-- What is fetched at a pair of instructions at offset `o`. -/
structure PointPair.Fetches (image image' : Image) (n m : Nat) (p : PointPair) (o : Nat) (i j : Instruction) :
    Prop where
  renames : i.Renames image image' n m p.known p.after j
  leads : i.isReturn = false → ∀ {target}, i.Leads (o + p.op.size) target →
    (target = o + p.op.size ∧ p.first.falls = true) ∨ (target = p.first.target o ∧ p.first.jumps = true)

namespace Renamed

open Fetch

variable {image image' : Image} {c d : Chunk} {n m o : Nat} {opened : List (Nat × SlotPairs)}
  {known : SlotPairs} {P : Nat → Option PointPair} {p : PointPair}

theorem both_operands (h : Renamed image image' c d n m opened known P) (hp : P o = some p) :
    Both (o + 1) (o + p.op.size) (p.Fetches image image' n m o) (Instruction.operands c p.op)
      (Instruction.operands d p.op) := by
  have hleft := h.first.operands (p := p.first) (by rw [hp]; rfl)
  have hright := h.second.operands (p := p.second) (by rw [hp]; rfl)
  have hlen := h.first.operands_length (p := p.first) (by rw [hp]; rfl)
  have hlen' := h.second.operands_length (p := p.second) (by rw [hp]; rfl)
  have hfits := h.fits hp
  have hks := h.constants
  obtain ⟨op, left, right, depth, facts⟩ := p
  simp only [PointPair.first, PointPair.second] at hleft hright hlen hlen'
  have hone : op.operands.length = 1 → (∃ a, left = [a]) ∧ ∃ b, right = [b] := fun h1 =>
    ⟨length_eq_one_iff.1 (hlen.trans h1), length_eq_one_iff.1 (hlen'.trans h1)⟩
  have htwo : op.operands.length = 2 → ∃ a b, left = [a, b] := fun h2 =>
    match left, hlen.trans h2 with
    | [a, b], _ => ⟨a, b, rfl⟩
  -- the cases are grouped by the operands of the instruction
  cases op
  case loadLocal | loadCell | storeCell | makeCell =>
    obtain ⟨⟨a, rfl⟩, b, rfl⟩ := hone rfl
    refine (both_byte (one_eq_some hleft) (one_eq_some hright)).map ?_
    rintro _ _ ⟨rfl, rfl⟩
    first
    | exact ⟨.loadLocal hfits, fun _ _ ht => .inl ⟨ht, rfl⟩⟩
    | exact ⟨.loadCell hfits, fun _ _ ht => .inl ⟨ht, rfl⟩⟩
    | exact ⟨.storeCell hfits, fun _ _ ht => .inl ⟨ht, rfl⟩⟩
    | exact ⟨.makeCell hfits, fun _ _ ht => .inl ⟨ht, rfl⟩⟩
  case storeLocal =>
    obtain ⟨⟨a, rfl⟩, b, rfl⟩ := hone rfl
    refine (both_byte (one_eq_some hleft) (one_eq_some hright)).map ?_
    rintro _ _ ⟨rfl, rfl⟩
    exact ⟨.storeLocal hfits.1 hfits.2, fun _ _ ht => .inl ⟨ht, rfl⟩⟩
  case closure =>
    obtain ⟨⟨a, rfl⟩, b, rfl⟩ := hone rfl
    obtain ⟨rfl, k, f, g, hk, hf, hg, hcaps⟩ := hfits
    refine (both_constant hks (two_eq_some hleft) (two_eq_some hright)).bind ?_
    rintro _ _ ⟨rfl, hk'⟩
    rw [hk] at hk'
    cases hk'
    exact .pure ⟨.closure hf hg hcaps, fun _ _ ht => .inl ⟨ht, rfl⟩⟩
  all_goals obtain rfl : right = left := hfits
  case ret | retVoid => exact .pure ⟨.same rfl, nofun⟩
  case loadFree | loadFreeCell | storeFreeCell | getField | setField | widen | narrow =>
    obtain ⟨⟨a, rfl⟩, -⟩ := hone rfl
    refine (both_byte (one_eq_some hleft) (one_eq_some hright)).map ?_
    rintro _ _ ⟨rfl, rfl⟩
    exact ⟨.same rfl, fun _ _ ht => .inl ⟨ht, rfl⟩⟩
  case loadHost | storeHost =>
    obtain ⟨⟨a, rfl⟩, -⟩ := hone rfl
    refine (both_cell hks (two_eq_some hleft) (two_eq_some hright)).map ?_
    rintro _ _ rfl
    exact ⟨.same rfl, fun _ _ ht => .inl ⟨ht, rfl⟩⟩
  case newAggregate | newObject | unbox | cast | retag | newArray =>
    obtain ⟨⟨a, rfl⟩, -⟩ := hone rfl
    refine (both_type hks (two_eq_some hleft) (two_eq_some hright)).map ?_
    rintro _ _ rfl
    exact ⟨.same rfl, fun _ _ ht => .inl ⟨ht, rfl⟩⟩
  case box =>
    obtain ⟨⟨a, rfl⟩, -⟩ := hone rfl
    refine (both_type hks (two_eq_some hleft) (two_eq_some hright)).bind fun _ _ _ => .pure ?_
    exact ⟨.same rfl, fun _ _ ht => .inl ⟨ht, rfl⟩⟩
  case const =>
    obtain ⟨⟨a, rfl⟩, -⟩ := hone rfl
    refine (both_constant hks (two_eq_some hleft) (two_eq_some hright)).bind ?_
    rintro _ k ⟨rfl, -⟩
    cases k <;> first | exact .pure ⟨.same rfl, fun _ _ ht => .inl ⟨ht, rfl⟩⟩ | exact .throw _
  case call | callVirtual | callInterface =>
    obtain ⟨⟨a, rfl⟩, -⟩ := hone rfl
    refine (both_method hks (two_eq_some hleft) (two_eq_some hright)).map ?_
    rintro _ _ rfl
    exact ⟨.same rfl, fun _ _ ht => .inl ⟨ht, rfl⟩⟩
  case invoke =>
    obtain ⟨a, b, rfl⟩ := htwo rfl
    obtain ⟨ha, hb⟩ := one_one_eq_some hleft
    obtain ⟨ha', hb'⟩ := one_one_eq_some hright
    refine (both_byte ha ha').seq (both_byte hb hb') ?_
    rintro _ _ ⟨rfl, rfl⟩ _ _ ⟨rfl, rfl⟩
    exact ⟨.same rfl, fun _ _ ht => .inl ⟨ht, rfl⟩⟩
  case arrayOf =>
    obtain ⟨a, b, rfl⟩ := htwo rfl
    obtain ⟨ha, hb⟩ := two_two_eq_some hleft
    obtain ⟨ha', hb'⟩ := two_two_eq_some hright
    refine (both_type hks ha ha').seq (both_pair hb hb') ?_
    rintro _ _ rfl _ _ ⟨rfl, rfl⟩
    exact ⟨.same rfl, fun _ _ ht => .inl ⟨ht, rfl⟩⟩
  case jump =>
    obtain ⟨⟨a, rfl⟩, -⟩ := hone rfl
    refine (both_target (two_eq_some hleft) (two_eq_some hright)).map ?_
    rintro _ _ ⟨rfl, rfl⟩
    exact ⟨.same rfl, fun _ _ ht => .inr ⟨ht, rfl⟩⟩
  case jumpIfFalse =>
    obtain ⟨⟨a, rfl⟩, -⟩ := hone rfl
    refine (both_target (two_eq_some hleft) (two_eq_some hright)).map ?_
    rintro _ _ ⟨rfl, rfl⟩
    exact ⟨.same rfl, fun _ _ ht => ht.imp (⟨·, rfl⟩) (⟨·, rfl⟩)⟩
  all_goals exact .pure ⟨.same rfl, fun _ _ ht => .inl ⟨ht, rfl⟩⟩

end Renamed

/-! ## Closures and delegates -/

structure Closure.Alike (c c' : Closure) : Prop where
  image : c.image.Alike c'.image
  function : c.function.Alike c.image c'.image c'.function
  free : c'.free = c.free
  verify : c'.verify = c.verify

inductive Delegate.Alike : Delegate → Delegate → Prop
  | refl (d : Delegate) : Alike d d
  | code {c c' : Closure} (h : c.Alike c') : Alike (.compiled c) (.compiled c')

abbrev Store.renamed : Correspondence := alike Delegate.Alike

/-- The executions do the same, up to delegates of renamed functions. -/
abbrev Exec.Renamed {α : Type} (x y : Exec α) : Prop := Exec.Matched Delegate.Alike False x y

theorem Delegate.relates_alike : Delegate.Relates Delegate.Alike where
  refl := .refl
  code h := by
    cases h with
    | refl => exact .inl rfl
    | code => exact .inr ⟨_, _, rfl, rfl⟩

/-! ## Frames -/

/-- Two frames at the same place of the same code, slots apart, with the same operand stack. -/
inductive Frame.Alike (f : Frame) : Frame → Prop
  | refl : Alike f f
  | renamed {g : Frame} {known : SlotPairs} {P : Nat → Option PointPair} (closure : f.closure.Alike g.closure)
    (ip : g.ip = f.ip) (stack : g.stack = f.stack)
    (code : Renamed f.closure.image g.closure.image f.closure.function.chunk g.closure.function.chunk
      f.locals.size g.locals.size [] known P)
    (place : (∃ p, P f.ip = some p ∧ p.known.Agree f.locals g.locals) ∨
      f.ip = f.closure.function.chunk.code.size) : Alike f g

variable {f g f' g' : Frame} {i j : Instruction} {known after : SlotPairs} {D : Delegate → Delegate → Prop} {E : Prop}

def Capture.Beside (f g : Frame) (k k' : Capture) : Prop :=
  k'.source = k.source ∧
    match k.source with
    | .slot | .slotCell => k'.index.toNat?.bind (g.locals[·]?) = k.index.toNat?.bind (f.locals[·]?)
    | .free | .freeCell => k'.index = k.index
    | .absent => True

theorem Capture.beside_refl (f : Frame) (k : Capture) : k.Beside f f k := by
  refine ⟨rfl, ?_⟩
  cases k.source <;> first | rfl | trivial

theorem Capture.Alike.beside {k k' : Capture} (h : k.Alike known k') (hagree : known.Agree f.locals g.locals) :
    k.Beside f g k' := by
  have hindex := h.index
  refine ⟨h.source, ?_⟩
  cases hs : k.source with
  | slot | slotCell =>
    simp only [hs] at hindex ⊢
    obtain ⟨a, b, ha, hb, hmem⟩ := hindex
    rw [ha, hb]
    exact hagree _ hmem
  | free | freeCell => simpa only [hs] using hindex
  | absent => trivial

namespace Machine

theorem local_place (f : Frame) (k : Capture) :
    (do f.local? (← capture.place k)) = Exec.getSome (k.index.toNat?.bind (f.locals[·]?)) := by
  unfold capture.place local?
  cases k.index.toNat? <;> rfl

theorem agrees_capture (hfree : g.closure.free = f.closure.free) {k k' : Capture} (h : k.Beside f g k') :
    Exec.Matched D E (capture f k) (capture g k') := by
  obtain ⟨hsource, hindex⟩ := h
  have hslot : k'.index.toNat?.bind (g.locals[·]?) = k.index.toNat?.bind (f.locals[·]?) →
      Exec.Matched D E (do f.local? (← capture.place k)) (do g.local? (← capture.place k')) := by
    intro h
    rw [local_place, local_place, h]
    exact .found _
  have hcaptured : k'.index = k.index →
      Exec.Matched D E (do f.free? (← capture.place k)) (do g.free? (← capture.place k')) := by
    intro h
    unfold capture.place free?
    rw [h, hfree]
    exact (Relates.found _).seq fun _ _ _ _ => .found _
  unfold capture
  rw [hsource]
  cases hs : k.source with
  | slot =>
    rw [hs] at hindex
    dsimp only
    rw [← bind_assoc, ← bind_assoc]
    exact (hslot hindex).seq fun _ v _ _ => .clone trivial
  | slotCell =>
    rw [hs] at hindex
    exact hslot hindex
  | free =>
    rw [hs] at hindex
    dsimp only
    rw [← bind_assoc, ← bind_assoc]
    exact (hcaptured hindex).seq fun _ v _ _ => .clone trivial
  | freeCell =>
    rw [hs] at hindex
    exact hcaptured hindex
  | absent => exact .result _

theorem agrees_captures (hfree : g.closure.free = f.closure.free) {ks ks' : List Capture}
    (h : List.Forall₂ (Capture.Beside f g) ks ks') :
    Exec.Matched D E (ks.mapM (capture f)) (ks'.mapM (capture g)) := by
  induction h with
  | nil => exact .result _
  | cons hk _ ih =>
    rw [mapM_cons, mapM_cons]
    exact (agrees_capture hfree hk).seq fun _ _ _ _ => Relates.seq ih fun _ _ _ _ => .result _

theorem agrees_makeClosure (hfree : g.closure.free = f.closure.free) {k : Nat} {a b : Function}
    (ha : f.closure.image[k]? = some a) (hb : g.closure.image[k]? = some b) (htype : b.type = a.type)
    (hcaptures : List.Forall₂ (Capture.Beside f g) a.captures b.captures)
    (hD : ∀ free, D (.compiled { f.closure with function := a, free := free })
      (.compiled { g.closure with function := b, free := free })) :
    Exec.Matched D E (makeClosure f k) (makeClosure g k) := by
  unfold makeClosure
  rw [ha, hb]
  refine (agrees_captures hfree hcaptures).seq fun _ free _ _ => ?_
  refine (Relates.addDelegate fun _ _ => hD free.toArray).seq fun _ loc _ _ => ?_
  rw [htype]
  exact .result _

end Machine

namespace Instruction

variable {enter enter' : Closure → List Value → Exec Value}

/-- Renamed instructions do the same where the slots they read agree. -/
theorem Renames.beside (h : i.Renames f.closure.image g.closure.image f.locals.size g.locals.size known after j)
    (henter : renamed.Enters enter enter') (hc : f.closure.Alike g.closure)
    (hagree : known.Agree f.locals g.locals) : i.Beside renamed () enter enter' f g j := by
  cases h with
  | same hi => exact .same hi (fits_alike henter f i)
  | loadLocal hmem => exact .loadLocal (hagree _ hmem) fun _ _ => trivial
  | loadCell hmem => exact .loadCell (hagree _ hmem)
  | storeCell hmem => exact .storeCell (hagree _ hmem)
  | makeCell hmem => exact .makeCell (hagree _ hmem) fun _ _ => trivial
  | storeLocal ha hb => exact .storeLocal ⟨fun _ => ha, fun _ => hb⟩
  | @closure k a b hf hg hcaps =>
    have hab := hc.image.function hf hg
    exact .closure (Machine.agrees_makeClosure hc.free hf hg hab.type (hcaps.imp fun _ _ hk => hk.beside hagree)
      fun free => .code ⟨hc.image, hab, rfl, hc.verify⟩)

/-- After renamed instructions the frames have the same stack again, and the slots agree that should. -/
theorem Renames.agree (h : i.Renames f.closure.image g.closure.image f.locals.size g.locals.size known after j)
    (hip : g.ip = f.ip) (hagree : known.Agree f.locals g.locals) {d : Nat}
    (ha : i.Afterwards renamed () f g d j f' g') :
    (f'.closure = f.closure ∧ g'.closure = g.closure) ∧ (g'.ip = f'.ip ∧ g'.stack = f'.stack) ∧
      (f'.locals.size = f.locals.size ∧ g'.locals.size = g.locals.size) ∧ after.Agree f'.locals g'.locals := by
  have hstored : ∀ {a b : Nat} {v : Value}, Frame.LevelWith renamed () f g d a b v f' g' →
      (f'.closure = f.closure ∧ g'.closure = g.closure) ∧ (g'.ip = f'.ip ∧ g'.stack = f'.stack) ∧
        (f'.locals.size = f.locals.size ∧ g'.locals.size = g.locals.size) ∧
          (known.learn a b).Agree f'.locals g'.locals := by
    rintro a b v ⟨hla, hlb, ⟨stack⟩, -, -⟩
    exact ⟨⟨rfl, rfl⟩, ⟨hip, rfl⟩, ⟨Array.size_setIfInBounds, Array.size_setIfInBounds⟩, hagree.set v hla hlb⟩
  have hmoved : ∀ {a b : Nat}, b = a → Level renamed () { f with ip := a } { g with ip := b } d f' g' →
      (f'.closure = f.closure ∧ g'.closure = g.closure) ∧ (g'.ip = f'.ip ∧ g'.stack = f'.stack) ∧
        (f'.locals.size = f.locals.size ∧ g'.locals.size = g.locals.size) ∧ known.Agree f'.locals g'.locals := by
    rintro a b hab ⟨⟨stack⟩, -, -⟩
    exact ⟨⟨rfl, rfl⟩, ⟨hab, rfl⟩, ⟨rfl, rfl⟩, hagree⟩
  cases h with
  | same hi =>
    cases i with
    | jump => exact hmoved rfl ha
    | jumpIfFalse => exact ha.elim (hmoved hip) (hmoved rfl)
    | loadLocal | storeLocal | makeCell | loadCell | storeCell | closure => cases hi
    | _ => exact hmoved hip ha
  | loadLocal | loadCell | storeCell | closure => exact hmoved hip ha
  | storeLocal =>
    obtain ⟨v, -, hlevel⟩ := ha
    exact hstored hlevel
  | makeCell =>
    obtain ⟨v, hlevel⟩ := ha
    exact hstored hlevel

theorem beside_refl (hD : ∀ d, D d d) (henter : (alike D E).Enters enter enter') (f : Frame) (i : Instruction) :
    i.Beside (alike D E) () enter enter' f f i := by
  refine beside_self henter f (fun k => ?_) i
  cases hk : f.closure.image[k]? with
  | none =>
    unfold Machine.makeClosure
    rw [hk]
    exact .corrupt
  | some a =>
    exact Machine.agrees_makeClosure rfl hk hk rfl (forall₂_same.2 fun c _ => c.beside_refl f) fun _ => hD _

theorem eq_of_afterwards {d : Nat} (h : i.Afterwards renamed () f f d i f' g') : g' = f' := by
  have hmoved : ∀ {a : Frame}, Level renamed () a a d f' g' → g' = f' := by
    rintro a ⟨⟨stack⟩, -, -⟩
    rfl
  cases i with
  | jumpIfFalse => exact h.elim hmoved hmoved
  | storeLocal =>
    obtain ⟨v, -, hlevel⟩ := h
    exact hmoved hlevel.level
  | makeCell =>
    obtain ⟨v, hlevel⟩ := h
    exact hmoved hlevel.level
  | _ => exact hmoved h

end Instruction

namespace Frame

/-- What two frames execute, which leaves them alike again; the next instruction is at `ip`. -/
structure Goes (enter enter' : Closure → List Value → Exec Value) (f g : Frame) (ip : Nat) (i j : Instruction) :
    Prop where
  beside : i.Beside renamed () enter enter' { f with ip := ip } { g with ip := ip } j
  next : i.isReturn = false → ∀ {f' g' : Frame} {d : Nat}, i.Leads ip f'.ip →
    i.Afterwards renamed () { f with ip := ip } { g with ip := ip } d j f' g' → f'.Alike g'

theorem level_self (hstack : g.stack = f.stack) (d : Nat) : Level (alike D E) () f g d f g := by
  refine ⟨?_, fun _ _ => trivial, False.elim⟩
  obtain ⟨c, ip, stack, locals⟩ := g
  obtain rfl : stack = f.stack := hstack
  exact ⟨f.stack⟩

namespace Alike

theorem free (h : f.Alike g) : g.closure.free = f.closure.free := by
  cases h with
  | refl => rfl
  | renamed hc => exact hc.free

theorem name (h : f.Alike g) : g.closure.function.name = f.closure.function.name := by
  cases h with
  | refl => rfl
  | renamed hc => exact hc.function.name

theorem ip (h : f.Alike g) : g.ip = f.ip := by
  cases h with
  | refl => rfl
  | renamed _ hip => exact hip

theorem stack (h : f.Alike g) : g.stack = f.stack := by
  cases h with
  | refl => rfl
  | renamed _ _ hstack => exact hstack

theorem byte (h : f.Alike g) : g.closure.function.chunk.code[g.ip]? = f.closure.function.chunk.code[f.ip]? := by
  cases h with
  | refl => rfl
  | renamed _ hip _ hcode hplace =>
    rw [hip]
    rcases hplace with ⟨p, hp, -⟩ | hend
    · rw [hcode.first.byte (p := p.first) (by rw [hp]; rfl), hcode.second.byte (p := p.second) (by rw [hp]; rfl)]
      rfl
    · rw [hend, Array.getElem?_eq_none (Nat.le_of_eq hcode.size), Array.getElem?_eq_none (Nat.le_refl _)]

/-- **One instruction.** Both frames fetch the same fault, or instructions that leave them alike. -/
theorem fetch {enter enter' : Closure → List Value → Exec Value} (henter : Store.renamed.Enters enter enter')
    (h : f.Alike g) {b : UInt8} (hb : f.closure.function.chunk.code[f.ip]? = some b) :
    (∃ e, Instruction.fetch f.closure.function.chunk f.ip b = .error e ∧
      Instruction.fetch g.closure.function.chunk g.ip b = .error e) ∨
    ∃ i j ip, Instruction.fetch f.closure.function.chunk f.ip b = .ok (i, ip) ∧
      Instruction.fetch g.closure.function.chunk g.ip b = .ok (j, ip) ∧ Goes enter enter' f g ip i j := by
  cases h with
  | refl =>
    cases hfetch : Instruction.fetch f.closure.function.chunk f.ip b with
    | error e => exact .inl ⟨e, rfl, rfl⟩
    | ok r =>
      refine .inr ⟨r.1, r.1, r.2, rfl, rfl, Instruction.beside_refl .refl henter _ _, fun _ f' g' _ _ ha => ?_⟩
      rw [Instruction.eq_of_afterwards ha]
      exact .refl
  | @renamed _ known P hc hip hstack hcode hplace =>
    rcases hplace with ⟨p, hp, hagree⟩ | hend
    · have hbyte := hcode.first.byte (p := p.first) (by rw [hp]; rfl)
      rw [hb] at hbyte
      cases hbyte
      rw [hip, Instruction.fetch, Instruction.fetch]
      dsimp only [PointPair.first]
      rw [Opcode.ofByte?_byte]
      refine (hcode.both_operands hp).imp id ?_
      rintro ⟨i, j, hi, hj, hfetches⟩
      generalize hnext : f.ip + p.op.size = next at hi hj
      refine ⟨i, j, next, hi, hj, hfetches.renames.beside (f := { f with ip := next })
        (g := { g with ip := next }) henter hc hagree, fun hret f' g' d hleads ha => ?_⟩
      obtain ⟨⟨hcf, hcg⟩, ⟨hip', hstack'⟩, ⟨hn, hm⟩, hafter⟩ := hfetches.renames.agree
        (f := { f with ip := next }) (g := { g with ip := next }) rfl hagree ha
      rw [← hnext] at hleads
      -- the pairs that agree now are enough wherever control goes
      have harrives : ArrivesAlike P f.closure.function.chunk.code.size known f'.ip p.after := by
        rcases hfetches.leads hret hleads with ⟨hnext, hfalls⟩ | ⟨htarget, hjumps⟩
        · rw [hnext]
          exact hcode.falls hp hfalls
        · rw [htarget]
          exact (hcode.jumps hp hjumps).resolve_left (by simp)
      refine @Frame.Alike.renamed f' g' known P ?_ hip' hstack' ?_ ?_
      · rw [hcf, hcg]
        exact hc
      · rw [hcf, hcg, hn, hm]
        exact hcode
      · rw [hcf]
        rcases harrives with ⟨q, hq, hsub⟩ | ⟨hend, -⟩
        · exact .inl ⟨q, hq, hafter.mono hsub⟩
        · exact .inr hend
    · rw [hend, Array.getElem?_eq_none (Nat.le_refl _)] at hb
      cases hb

end Alike

end Frame

/-! ## Runs -/

theorem Correspondence.Relates.gives {K : Correspondence} {w : K.World} {α β : Type} {R : K.World → α → β → Prop}
    {Q : α → Prop} {x : Exec α} {y : Exec β} (h : K.Relates w R x y) (hx : Exec.Gives x Q) :
    K.Relates w (fun w a b => R w a b ∧ Q a) x y := by
  intro w' hw s t hst
  have hxy := h hw hst
  generalize hr : x s = r at hxy
  generalize y t = r' at hxy
  cases hxy with
  | ok hlater hst' hab => exact .ok hlater hst' ⟨hab, hx _ _ _ hr⟩
  | error hlater hst' he hloops => exact .error hlater hst' he hloops

namespace Machine

variable {H : Host} {ctx : Context} {call call' : Caller} {enter' : Closure → List Value → Exec Value}
  {c c' : Closure}

inductive Progress.Alike : Progress → Progress → Prop
  | next {f g : Frame} (h : f.Alike g) : Alike (.next f) (.next g)
  | done (v : Value) : Alike (.done v) (.done v)

theorem agrees_located {α : Type} {R : Unit → α → α → Prop} {x y : Exec α}
    (h : (alike D E).Relates () R x y) (function : String) (ip : Nat) (b : UInt8) :
    (alike D E).Relates () R (located function ip b x) (located function ip b y) := by
  refine h.mapError _ fun e => ?_
  split <;> rfl

theorem agrees_endOfCode (h : f.Alike g) : Exec.Matched D E (endOfCode f) (endOfCode g) := by
  unfold endOfCode
  rw [h.name, h.ip]
  exact agrees_located (.throw False.elim fun _ => Abort.noConfusion) _ _ _

theorem agrees_checkDepth (h : f.Alike g) :
    Exec.Matched D E (checkDepth f) (checkDepth g) := by
  have hsame : checkDepth g = checkDepth f := by
    cases h with
    | refl => rfl
    | renamed hc hip hstack hcode =>
      unfold checkDepth
      rw [hc.verify, hcode.depths, hip, hstack]
  rw [hsame]
  unfold checkDepth
  split
  · exact (Relates.found _).seq fun _ _ _ _ => .ite (fun _ => .result _) fun _ =>
      .throw False.elim fun _ => Abort.noConfusion
  · exact .result _

variable (hctx : ctx.Agrees renamed call') (henter : renamed.Enters ctx.enter enter')
include hctx henter

theorem relates_advance (h : f.Alike g) {b : UInt8} (hb : f.closure.function.chunk.code[f.ip]? = some b) :
    Store.renamed.Relates () (fun _ => Progress.Alike) (advance ctx f b) (advance (ctx.calling call' enter') g b) := by
  rcases h.fetch henter hb with ⟨e, hf, hg⟩ | ⟨i, j, ip, hf, hg, hgoes⟩
  · unfold advance
    rw [hf, hg]
    cases e <;> exact .throw False.elim False.elim
  · cases hret : i.isReturn with
    | true =>
      have hj : j = i := by
        cases hgoes.beside with
        | same => rfl
        | _ => cases hret
      subst hj
      unfold advance
      rw [hf, hg]
      cases j with
      | ret => exact (level_self h.stack (0 + 1)).pop fun v _ _ _ _ => .pure fun _ _ => .done v
      | retVoid => exact .pure fun _ _ => .done _
      | _ => cases hret
    | false =>
      have hret' : j.isReturn = false := by
        cases hgoes.beside <;> exact hret
      rw [advance_of_fetch hf hret, advance_of_fetch hg hret']
      have hlevel := (level_self h.stack (0 + i.effect.pop) : Level Store.renamed () f g _ f g).jump ip
      have hexec := relates_execute hctx (f := { f with ip := ip })
        (g := { g with ip := ip }) h.free hlevel hgoes.beside
      refine (hexec.gives (gives_execute ctx _ i)).bind fun _ f' g' _ hfg => .pure fun _ _ => .next ?_
      obtain ⟨hafter, -, hleads⟩ := hfg
      exact hgoes.next hret hleads hafter

theorem agrees_run (n : Nat) (h : f.Alike g) :
    Exec.Renamed (run ctx n f) (run (ctx.calling call' enter') n g) := by
  induction n generalizing f g with
  | zero => exact agrees_endOfCode h
  | succ n ih =>
    unfold run
    rw [h.byte, h.name, h.ip]
    cases hb : f.closure.function.chunk.code[f.ip]? with
    | none => exact agrees_endOfCode h
    | some b =>
      refine (agrees_located (agrees_checkDepth h) _ _ b).seq fun _ _ _ _ => ?_
      refine (agrees_located (relates_advance hctx henter h hb) _ _ b).bind fun _ _ _ _ hprogress => ?_
      cases hprogress with
      | next hfg => exact ih hfg
      | done v => exact .result _

omit hctx henter

/-! ## Calls -/

theorem size_enter (c : Closure) (args : List Value) : (enter c args).locals.size = c.function.locals.toNat := by
  simp only [enter, size_toArray, length_append, length_take, length_replicate]
  omega

theorem getElem?_enter (c : Closure) (args : List Value) {slot : Nat} (h : (slot : Int) < c.function.locals) :
    (enter c args).locals[slot]? = some (args.getD slot {}) := by
  simp only [enter, getElem?_toArray, getElem?_append, length_take, getElem?_take,
    getElem?_replicate]
  by_cases hargs : slot < args.length
  · rw [if_pos (by omega), if_pos (by omega), getD_eq_getElem?_getD, getElem?_eq_getElem hargs]
    rfl
  · rw [if_neg (by omega), if_pos (by omega), getD_eq_getElem?_getD,
      getElem?_eq_none (Nat.le_of_not_lt hargs)]
    rfl

theorem alike_enter (h : c.Alike c') (args : List Value) : (enter c args).Alike (enter c' args) := by
  obtain ⟨n, m, known, P, hn, hm, hcode⟩ := h.function.code
  have hsize : (enter c args).locals.size = n := by rw [size_enter, hn, Int.toNat_natCast]
  have hsize' : (enter c' args).locals.size = m := by rw [size_enter, hm, Int.toNat_natCast]
  refine @Frame.Alike.renamed _ _ known P h rfl rfl ?_ ?_
  · rw [hsize, hsize']
    exact hcode
  · refine hcode.entry.imp (fun ⟨p, hp, hentry⟩ => ⟨p, hp, fun x hx => ?_⟩) fun ⟨hzero, _⟩ => hzero.symm
    obtain ⟨heq, hlt, hlt'⟩ := hentry x hx
    rw [heq, getElem?_enter _ _ (by omega), getElem?_enter _ _ (by omega)]

theorem agrees_callClosure (hH : H.Discreet) (hcall : Caller.Alike Delegate.Alike call call') (n : Nat)
    (h : Delegate.Alike (.compiled c) (.compiled c')) (args : List Value) :
    Exec.Renamed (callClosure H call n c args) (callClosure H call' n c' args) := by
  induction n generalizing c c' args with
  | zero =>
    have hname : c'.function.name = c.function.name ∧ c'.function.arity = c.function.arity := by
      cases h with
      | refl => exact ⟨rfl, rfl⟩
      | code h => exact ⟨h.function.name, h.function.arity⟩
    unfold callClosure
    rw [hname.1, hname.2]
    exact .ite (fun _ => .throw False.elim False.elim) fun _ => .throw False.elim False.elim
  | succ n ih =>
    have hctx : Context.Agrees renamed ⟨H, call, callClosure H call n⟩ call' :=
      ⟨hH.routines .refl hcall, hcall.callers⟩
    have henter : renamed.Enters (callClosure H call n) (callClosure H call' n) :=
      ⟨fun hd => Delegate.relates_alike.code hd, fun hd _ => ih hd _⟩
    unfold callClosure
    cases h with
    | refl =>
      refine .ite (fun _ => .throw False.elim False.elim) fun _ => .ite (fun _ => .corrupt) fun _ => ?_
      exact agrees_run hctx henter _ .refl
    | code h =>
      obtain ⟨l, m, known, P, hl, hm, hcode⟩ := h.function.code
      have hneg : ¬c.function.locals < 0 := by omega
      have hneg' : ¬c'.function.locals < 0 := by omega
      rw [h.function.name, h.function.arity]
      refine .ite (fun _ => .throw False.elim False.elim) fun _ => ?_
      dsimp only
      rw [if_neg hneg, if_neg hneg', hcode.size]
      exact agrees_run hctx henter _ (alike_enter h args)

theorem agrees_recovering {α : Type} {x y : Exec α} (h : Exec.Renamed x y)
    (name : String) : Exec.Renamed (recovering name x) (recovering name y) := by
  intro w' hw s t hst
  have hxy := h hw hst
  generalize hx : x s = r at hxy
  generalize hy : y t = r' at hxy
  unfold recovering
  rw [hx, hy]
  cases hxy with
  | ok hlater hst' hab => exact .ok hlater hst' hab
  | @error w' e s' t' hlater hst' he =>
    cases e <;> exact .error hlater hst' False.elim False.elim

theorem agrees_invokeClosure (hH : H.Discreet) (hcall : Caller.Alike Delegate.Alike call call')
    (h : Delegate.Alike (.compiled c) (.compiled c')) (args : List Value) :
    Exec.Renamed (invokeClosure H call c args) (invokeClosure H call' c' args) := by
  have hname : c'.function.name = c.function.name := by
    cases h with
    | refl => rfl
    | code h => exact h.function.name
  unfold invokeClosure
  rw [hname]
  exact agrees_recovering (agrees_callClosure hH hcall _ h args) _

end Machine

/-! ## What a host calls -/

variable {H : Host}

theorem alike_callDelegate (hH : H.Discreet) (n : Nat) :
    Caller.Alike Delegate.Alike (callDelegate H n) (callDelegate H n) := by
  induction n with
  | zero => exact fun _ _ _ _ => Exec.same_iff.2 (.throw False.elim False.elim)
  | succ n ih =>
    intro d d' hd args
    have hargs : renamed.PassesAll () args := fun _ _ => trivial
    have hcompiled : ∀ {c c' : Closure}, Delegate.Alike (.compiled c) (.compiled c') →
        Exec.Renamed (callDelegate H (n + 1) (.compiled c) args)
          (callDelegate H (n + 1) (.compiled c') args) := fun h =>
      (Relates.cloneAll hargs).seq fun _ vs _ _ => Machine.agrees_invokeClosure hH ih h vs
    refine Exec.same_iff.2 ?_
    cases hd with
    | code h => exact hcompiled (.code h)
    | refl =>
      cases d with
      | compiled c => exact hcompiled (.refl _)
      | evaluated =>
        exact Walk.agrees_callFromHost (T := Delegate.relates_alike.trees) (hH.routines .refl ih) ih.callers _ trivial
          hargs
      | host type routine =>
        exact (Relates.found routine).seq fun _ r _ _ =>
          Correspondence.agrees_run (hH.routines .refl ih) (.host r) trivial hargs

theorem Artifact.same_call (hH : H.Discreet) {a b : Artifact} (h : a.Alike b) (args : List Value) :
    Same Delegate.Alike (Callable.call H (.artifact a) args) (Callable.call H (.artifact b) args) := by
  refine Exec.same_iff.2 ?_
  show renamed.Agrees () _ (a.call H _ args) (b.call H _ args)
  unfold call
  rw [h.params, h.main.name]
  refine .ite (fun _ => .throw False.elim False.elim) fun _ => ?_
  refine (agrees_arguments H.types 0 _ fun _ _ => trivial).seq fun _ values _ _ => ?_
  refine Machine.agrees_invokeClosure hH (alike_callDelegate hH reentry) (.code ?_) values
  exact ⟨h.image, h.main, rfl, h.verify⟩

end TreeMachine
