import TreeMachine.Code.Instruction
import TreeMachine.Proofs.Code.WellFormed

/-!
# Fetching instructions

What the machine fetches at a point of a certified function: an instruction with the effect of the
point, whose operands are what the instruction takes them for (`Function.Certified.fetches`). From here
on a point is known by its instruction and no longer by bytes.
-/

open Option

namespace TreeMachine

/-! ## Instructions -/

namespace Instruction

/-- How many values an instruction takes from the operand stack and how many it leaves. -/
def effect : Instruction → Effect
  | nop | makeCell _ | jump _ | retVoid => ⟨0, 0⟩
  | pop | storeLocal _ | storeCell _ | storeFreeCell _ | storeHost _ | jumpIfFalse _ | ret => ⟨1, 0⟩
  | dup => ⟨1, 2⟩
  | dupX1 => ⟨2, 3⟩
  | dupX2 => ⟨3, 4⟩
  | push _ | loadLocal _ | loadCell _ | loadFree _ | loadFreeCell _ | loadHost _ | newAggregate _
  | newObject _ | closure _ => ⟨0, 1⟩
  | copy | getField _ | box | unbox _ | cast _ | retag _ | convert _ | neg | not | newArray _
  | arrayLength => ⟨1, 1⟩
  | setField _ => ⟨2, 0⟩
  | call m | callDynamic m => .ofCall m
  | invoke args results => ⟨args + 1, results⟩
  | arithmetic _ | concat | equal _ | sameRef _ | compare _ | getElem => ⟨2, 1⟩
  | arrayOf _ count => ⟨count, 1⟩
  | setElem => ⟨3, 0⟩

/-- The operands of an instruction refer to what it expects, where `facts` are known of the slots. -/
def Valid (image : Image) (constants : Array Constant) (mode : Nat → Option CaptureMode)
    (caps : List Bool) (facts : SlotFacts) : Instruction → Prop
  | push v => .value v ∈ constants ∨ ∀ loc, v.datum ≠ .cell loc
  | loadLocal s => ∃ m, mode s = some m ∧ m ≠ .byReference
  | storeLocal s => ∃ m, mode s = some m
  | makeCell s => mode s = some .byReference ∧ (s, false) ∈ facts
  | loadCell s | storeCell s => (s, true) ∈ facts
  | loadFree i => caps[i]? = some false
  | loadFreeCell i | storeFreeCell i => caps[i]? = some true
  | callDynamic m => m.isStatic = false
  | closure j => ∃ fn, image[j]? = some fn ∧ ∀ k ∈ fn.captures, k.Found mode caps facts
  | invoke _ results => results ≤ 1
  | _ => True

def factsAfter (facts : SlotFacts) : Instruction → SlotFacts
  | storeLocal s => facts.learn s false
  | makeCell s => facts.learn s true
  | _ => facts

def Leads (ip : Nat) (i : Instruction) (target : Nat) : Prop :=
  match i with
  | jump t => target = t
  | jumpIfFalse t => target = ip ∨ target = t
  | _ => target = ip

def isReturn : Instruction → Bool
  | ret | retVoid => true
  | _ => false

def makesCell : Instruction → Bool
  | makeCell _ => true
  | _ => false

end Instruction

structure Point.Fetches (image : Image) (c : Chunk) (mode : Nat → Option CaptureMode)
    (caps : List Bool) (o : Nat) (p : Point) (i : Instruction) : Prop where
  fetch : Instruction.fetch c o p.op.byte = .ok (i, o + p.op.size)
  effect : i.effect = p.effect
  valid : i.Valid image c.constants mode caps p.facts
  facts : i.factsAfter p.facts = p.factsAfter
  leads : i.isReturn = false → ∀ {target}, i.Leads (o + p.op.size) target →
    (target = o + p.op.size ∧ p.falls = true) ∨ (target = p.target o ∧ p.jumps = true)

/-! ## Operands -/

namespace Fetch

variable {c : Chunk} {o n m : Nat}

theorem bind_of_ok {α β : Type} {x : Fetch α} {f : α → Fetch β} {a : α} {o' : Nat} (h : x o = .ok (a, o')) :
    (x >>= f) o = f a o' := by
  simp only [bind, StateT.bind, h, Except.bind]

theorem byte_eq_ok (h : c.byte? o = some n) : byte c o = .ok (n, o + 1) := by
  unfold Chunk.byte? at h
  obtain ⟨b, hb, rfl⟩ := map_eq_some_iff.1 h
  simp only [byte, hb]

theorem pair_eq_ok (h : c.pair? o = some n) : pair c o = .ok (n, o + 2) := by
  simp only [Chunk.pair?, bind_eq_bind, bind_eq_some_iff, pure_def,
    some.injEq] at h
  obtain ⟨high, hhigh, low, hlow, rfl⟩ := h
  exact (bind_of_ok (byte_eq_ok hhigh)).trans (bind_of_ok (byte_eq_ok hlow))

theorem one_eq_some (h : c.operandsAt? [.one] o = some [n]) : c.byte? o = some n := by
  simpa [Chunk.operandsAt?, bind_eq_some_iff] using h

theorem two_eq_some (h : c.operandsAt? [.two] o = some [n]) : c.pair? o = some n := by
  simpa [Chunk.operandsAt?, bind_eq_some_iff] using h

theorem one_one_eq_some {m : Nat} (h : c.operandsAt? [.one, .one] o = some [n, m]) :
    c.byte? o = some n ∧ c.byte? (o + 1) = some m := by
  simpa [Chunk.operandsAt?, bind_eq_some_iff] using h

theorem two_two_eq_some {m : Nat} (h : c.operandsAt? [.two, .two] o = some [n, m]) :
    c.pair? o = some n ∧ c.pair? (o + 2) = some m := by
  simpa [Chunk.operandsAt?, bind_eq_some_iff] using h

theorem constant_eq_ok {k : Constant} (h : c.pair? o = some n) (hk : c.constants[n]? = some k) :
    constant c o = .ok (k, o + 2) := by
  unfold constant
  simp only [bind, StateT.bind, pair_eq_ok h, Except.bind, hk]
  rfl

theorem type_eq_ok {t : Option Ty} (h : c.pair? o = some n) (hk : c.constants[n]? = some (.type t)) :
    type c o = .ok (t, o + 2) := bind_of_ok (constant_eq_ok h hk)

theorem method_eq_ok {k : Method} (h : c.pair? o = some n)
    (hk : c.constants[n]? = some (.method k)) : method c o = .ok (k, o + 2) :=
  bind_of_ok (constant_eq_ok h hk)

theorem cell_eq_ok {loc : Loc} (h : c.pair? o = some n) (hk : c.constants[n]? = some (.cell loc)) :
    cell c o = .ok (loc, o + 2) := bind_of_ok (constant_eq_ok h hk)

theorem map_eq_ok {α β : Type} {f : α → β} {x : Fetch α} {a : α} {o' : Nat} (h : x o = .ok (a, o')) :
    (f <$> x) o = .ok (f a, o') := by
  show (StateT.map f x) o = _
  unfold StateT.map
  rw [h]
  rfl

theorem seq_eq_ok {α β γ : Type} {f : α → β → γ} {x : Fetch α} {y : Fetch β} {a : α} {b : β}
    {o₁ o₂ : Nat} (hx : x o = .ok (a, o₁)) (hy : y o₁ = .ok (b, o₂)) : (f <$> x <*> y) o = .ok (f a b, o₂) := by
  show ((f <$> x) >>= fun g => g <$> y) o = _
  rw [bind_of_ok (map_eq_ok hx)]
  exact map_eq_ok hy

theorem target_eq_ok (h : c.pair? o = some n) : target c o = .ok (o + 2 + n, o + 2) := by
  show (pair c >>= fun distance => get >>= fun here => pure (here + distance)) o = _
  exact bind_of_ok (pair_eq_ok h)

end Fetch

/-! ## Points -/

namespace Point.Fetches

variable {image : Image} {c : Chunk} {mode : Nat → Option CaptureMode} {caps : List Bool} {o d : Nat}
  {op : Opcode} {vs : List Nat} {e : Effect} {facts : SlotFacts} {i : Instruction}

theorem plain (hrun : (Instruction.operands c op).run (o + 1) = .ok (i, o + op.size))
    (he : Effect.of op vs c.constants = .ok e) (hi : Effect.of op vs c.constants = .ok i.effect)
    (hvalid : i.Valid image c.constants mode caps facts)
    (hfacts : i.factsAfter facts = (⟨op, vs, e, d, facts⟩ : Point).factsAfter) (hleads : i.isReturn = true ∨
      ((∀ {ip target}, i.Leads ip target → target = ip) ∧ (⟨op, vs, e, d, facts⟩ : Point).falls = true)) :
    Fetches image c mode caps o ⟨op, vs, e, d, facts⟩ i where
  fetch := by
    rw [Instruction.fetch, Opcode.ofByte?_byte]
    exact hrun
  effect := by
    rw [he] at hi
    exact (Except.ok.inj hi).symm
  valid := hvalid
  facts := hfacts
  leads hret target ht := by
    rcases hleads with hleads | ⟨hleads, hfalls⟩
    · rw [hleads] at hret
      cases hret
    · exact .inl ⟨hleads ht, hfalls⟩

end Point.Fetches

open Fetch

/-- **The machine fetches an instruction** at every point of a certified function. -/
theorem Function.Certified.fetches {image : Image} {f : Function} {mode : Nat → Option CaptureMode}
    {G : Nat → Option Point} (h : f.Certified image mode G) {o : Nat} {p : Point} (hp : G o = some p) :
    ∃ i, p.Fetches image f.chunk mode (f.captures.map (·.byRef)) o i := by
  have hvs := h.layout.operands hp
  have hlen := h.layout.operands_length hp
  have heff := h.effect hp
  have hv := h.valid hp
  obtain ⟨op, vs, e, d, facts⟩ := p
  simp only at hvs hlen heff
  have hnil : op.operands = [] → vs = [] := fun h0 => by
    rw [h0] at hlen
    exact List.eq_nil_of_length_eq_zero hlen
  have hone : op.operands.length = 1 → ∃ n, vs = [n] := fun h1 => List.length_eq_one_iff.1 (hlen.trans h1)
  have htwo : op.operands.length = 2 → ∃ n m, vs = [n, m] := fun h2 =>
    match vs, hlen.trans h2 with
    | [n, m], _ => ⟨n, m, rfl⟩
  -- the cases are grouped by the operands of the instruction
  cases op
  case pushNil | pushTrue | pushFalse =>
    obtain rfl := hnil rfl
    exact ⟨_, .plain rfl heff rfl (.inr fun _ => nofun) rfl (.inr ⟨id, rfl⟩)⟩
  case ret | retVoid =>
    obtain rfl := hnil rfl
    exact ⟨_, .plain rfl heff rfl trivial rfl (.inl rfl)⟩
  case loadLocal | storeLocal | makeCell | loadFree | loadFreeCell | storeFreeCell =>
    obtain ⟨n, rfl⟩ := hone rfl
    exact ⟨_, .plain (map_eq_ok (byte_eq_ok (one_eq_some hvs))) heff rfl hv rfl (.inr ⟨id, rfl⟩)⟩
  case loadCell | storeCell =>
    obtain ⟨n, rfl⟩ := hone rfl
    exact ⟨_, .plain (map_eq_ok (byte_eq_ok (one_eq_some hvs))) heff rfl hv.2 rfl (.inr ⟨id, rfl⟩)⟩
  case getField | setField | widen | narrow =>
    obtain ⟨n, rfl⟩ := hone rfl
    exact ⟨_, .plain (map_eq_ok (byte_eq_ok (one_eq_some hvs))) heff rfl trivial rfl (.inr ⟨id, rfl⟩)⟩
  case loadHost | storeHost =>
    obtain ⟨n, rfl⟩ := hone rfl
    obtain ⟨loc, hloc⟩ := hv
    exact ⟨_, .plain (map_eq_ok (cell_eq_ok (two_eq_some hvs) hloc)) heff rfl trivial rfl (.inr ⟨id, rfl⟩)⟩
  case newAggregate | newObject | unbox | cast | retag | newArray =>
    obtain ⟨n, rfl⟩ := hone rfl
    obtain ⟨t, ht⟩ := hv
    exact ⟨_, .plain (map_eq_ok (type_eq_ok (two_eq_some hvs) ht)) heff rfl trivial rfl (.inr ⟨id, rfl⟩)⟩
  case box =>
    obtain ⟨n, rfl⟩ := hone rfl
    obtain ⟨t, ht⟩ := hv
    refine ⟨.box, .plain ?_ heff rfl trivial rfl (.inr ⟨id, rfl⟩)⟩
    exact bind_of_ok (type_eq_ok (two_eq_some hvs) ht)
  case const =>
    obtain ⟨n, rfl⟩ := hone rfl
    obtain ⟨v, hk⟩ := hv
    refine ⟨.push v, .plain ?_ heff rfl (.inl (Array.mem_of_getElem? hk)) rfl (.inr ⟨id, rfl⟩)⟩
    exact bind_of_ok (constant_eq_ok (two_eq_some hvs) hk)
  case closure =>
    obtain ⟨n, rfl⟩ := hone rfl
    obtain ⟨j, fn, hk, hfn, hcaps⟩ := hv
    refine ⟨.closure j, .plain ?_ heff rfl ⟨fn, hfn, hcaps⟩ rfl (.inr ⟨id, rfl⟩)⟩
    exact bind_of_ok (constant_eq_ok (two_eq_some hvs) hk)
  case call =>
    obtain ⟨n, rfl⟩ := hone rfl
    obtain ⟨m, hm⟩ := hv
    refine ⟨.call m, .plain (map_eq_ok (method_eq_ok (two_eq_some hvs) hm)) heff ?_ trivial rfl (.inr ⟨id, rfl⟩)⟩
    simp only [Effect.of, hm]
    rfl
  case callVirtual | callInterface =>
    obtain ⟨n, rfl⟩ := hone rfl
    obtain ⟨m, hm, hstatic⟩ := hv
    refine ⟨.callDynamic m, .plain (map_eq_ok (method_eq_ok (two_eq_some hvs) hm))
      heff ?_ hstatic rfl (.inr ⟨id, rfl⟩)⟩
    simp only [Effect.of, hm]
    rfl
  case invoke =>
    obtain ⟨n, m, rfl⟩ := htwo rfl
    obtain ⟨hn, hm⟩ := one_one_eq_some hvs
    exact ⟨.invoke n m, .plain (seq_eq_ok (byte_eq_ok hn) (byte_eq_ok hm)) heff rfl hv rfl (.inr ⟨id, rfl⟩)⟩
  case arrayOf =>
    obtain ⟨n, m, rfl⟩ := htwo rfl
    obtain ⟨t, ht⟩ := hv
    obtain ⟨hn, hm⟩ := two_two_eq_some hvs
    exact ⟨.arrayOf t m, .plain (seq_eq_ok (type_eq_ok hn ht) (pair_eq_ok hm)) heff
      rfl trivial rfl (.inr ⟨id, rfl⟩)⟩
  case jump =>
    obtain ⟨n, rfl⟩ := hone rfl
    refine ⟨.jump (o + 1 + 2 + n), ?_, Except.ok.inj heff, trivial, rfl, fun _ target ht =>
      .inr ⟨ht, rfl⟩⟩
    rw [Instruction.fetch, Opcode.ofByte?_byte]
    exact map_eq_ok (target_eq_ok (two_eq_some hvs))
  case jumpIfFalse =>
    obtain ⟨n, rfl⟩ := hone rfl
    refine ⟨.jumpIfFalse (o + 1 + 2 + n), ?_, Except.ok.inj heff, trivial, rfl, fun _ target ht =>
      ht.imp (⟨·, rfl⟩) (⟨·, rfl⟩)⟩
    rw [Instruction.fetch, Opcode.ofByte?_byte]
    exact map_eq_ok (target_eq_ok (two_eq_some hvs))
  all_goals
    obtain rfl := hnil rfl
    exact ⟨_, .plain rfl heff rfl trivial rfl (.inr ⟨id, rfl⟩)⟩

end TreeMachine
