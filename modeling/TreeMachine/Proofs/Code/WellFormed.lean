import Mathlib.Tactic.ByContra
import TreeMachine.Proofs.Code.Certificate

/-!
# Well-formed functions

What it means for the code of a function to make sense, said of its bytes: `Chunk.Start` gives the
offsets that stepping over whole instructions reaches, and `Function.WellFormed` what must hold at each
of them. A certified function is well formed (`Function.Certified.wellFormed`): the points of a
certificate are exactly the instructions that stepping finds.
-/

open Option

namespace TreeMachine

namespace Opcode

def takesSlot : Opcode → Bool
  | loadLocal | storeLocal | makeCell | loadCell | storeCell => true
  | _ => false

def takesFree : Opcode → Bool
  | loadFree | loadFreeCell | storeFreeCell => true
  | _ => false

def isJump : Opcode → Bool
  | jump | jumpIfFalse => true
  | _ => false

def isFinal : Opcode → Bool
  | jump | ret | retVoid => true
  | _ => false

/-- The pool entries that the first operand may name; `none` if the operand is no place in the pool. -/
def pool? : Opcode → Option (Constant → Bool)
  | const => some fun | .value _ => true | _ => false
  | loadHost | storeHost => some fun | .cell _ => true | _ => false
  | newAggregate | newObject | box | unbox | cast | retag | newArray | arrayOf =>
    some fun | .type _ => true | _ => false
  | call | callVirtual | callInterface => some fun | .method _ => true | _ => false
  | closure => some fun | .function _ => true | _ => false
  | _ => none

end Opcode

namespace Chunk

def opcode? (c : Chunk) (o : Nat) : Option Opcode := (c.code[o]?).bind Opcode.ofByte?

theorem operands?_congr {c c' : Chunk} (h : c.code = c'.code) (o : Nat) : c.operands? o = c'.operands? o := by
  unfold operands?
  rw [h]
  refine congrArg _ (funext fun b => ?_)
  split
  · exact operandsAt?_congr fun i _ _ => by rw [h]
  · rfl

/-- The offsets that are reached from the start of the code by stepping over whole instructions. -/
inductive Start (c : Chunk) : Nat → Prop
  | zero : Start c 0
  | next {o : Nat} {op : Opcode} : Start c o → c.opcode? o = some op → Start c (o + op.size)

structure Instr (c : Chunk) (o : Nat) (op : Opcode) (vs : List Nat) : Prop where
  start : c.Start o
  opcode : c.opcode? o = some op
  operands : c.operands? o = some vs

end Chunk

/-- The place that a captured variable of a nested function names is one of the enclosing function,
and the variable is shared exactly if that place holds its cell. -/
def Capture.InRange (f : Function) (k : Capture) : Prop :=
  match k.source with
  | .slot => 0 ≤ k.index ∧ k.index < f.locals ∧ k.byRef = false
  | .slotCell => 0 ≤ k.index ∧ k.index < f.locals ∧ k.byRef = true
  | .free => 0 ≤ k.index ∧ k.index < f.captures.length ∧ k.byRef = false
  | .freeCell => 0 ≤ k.index ∧ k.index < f.captures.length ∧ k.byRef = true
  | .absent => False

/-- `D` gives the depth of the operand stack before each instruction: nothing is taken that is not
there, the depth behind an instruction is the depth before whatever can follow it, and recorded depths
are these. -/
structure Function.ModelsDepth (f : Function) (D : Nat → Nat) : Prop where
  start : D 0 = 0
  recorded : ∀ {o op vs}, f.chunk.Instr o op vs → f.chunk.DepthAt o (D o)
  enough : ∀ {o op vs e}, f.chunk.Instr o op vs → Effect.of op vs f.chunk.constants = .ok e →
    e.pop ≤ D o
  next : ∀ {o op vs e}, f.chunk.Instr o op vs → Effect.of op vs f.chunk.constants = .ok e →
    op.isFinal = false → D (o + op.size) = D o - e.pop + e.push
  jump : ∀ {o op n e}, f.chunk.Instr o op [n] → Effect.of op [n] f.chunk.constants = .ok e →
    op.isJump = true → D (o + op.size + n) = D o - e.pop + e.push

/-- The code of a function makes sense. -/
structure Function.WellFormed (image : Image) (f : Function) : Prop where
  covers : f.chunk.Start f.chunk.code.size
  known : ∀ {o}, f.chunk.Start o → o < f.chunk.code.size → ∃ op vs, f.chunk.Instr o op vs ∧
    vs.length = op.operands.length ∧ o + op.size ≤ f.chunk.code.size
  effects : ∀ {o op vs}, f.chunk.Instr o op vs → ∃ e, Effect.of op vs f.chunk.constants = .ok e
  last : ∃ o op, f.chunk.Instr o op [] ∧ (op = .ret ∨ op = .retVoid) ∧
    o + op.size = f.chunk.code.size
  targets : ∀ {o op n}, f.chunk.Instr o op [n] → op.isJump = true →
    f.chunk.Start (o + op.size + n) ∧ o + op.size + n < f.chunk.code.size
  depths : ∃ D, f.ModelsDepth D
  slots : ∀ {o op s}, f.chunk.Instr o op [s] → op.takesSlot = true → (s : Int) < f.locals
  free : ∀ {o op i}, f.chunk.Instr o op [i] → op.takesFree = true → i < f.captures.length
  pool : ∀ {o op i vs isKind}, f.chunk.Instr o op (i :: vs) → op.pool? = some isKind →
    ∃ k, f.chunk.constants[i]? = some k ∧ isKind k = true
  captures : ∀ {o i j}, f.chunk.Instr o .closure [i] → f.chunk.constants[i]? = some (.function j) →
    ∃ g, image[j]? = some g ∧ ∀ k ∈ g.captures, k.InRange f

theorem Point.Valid.pool {image : Image} {ks : Array Constant} {mode : Nat → Option CaptureMode}
    {caps : List Bool} {p : Point} (h : p.Valid image ks mode caps) {i : Nat} {vs : List Nat}
    (hvs : p.operands = i :: vs) (hlen : p.operands.length = p.op.operands.length)
    {isKind : Constant → Bool} (hk : p.op.pool? = some isKind) : ∃ k, ks[i]? = some k ∧ isKind k = true := by
  obtain ⟨op, operands, effect, depth, facts⟩ := p
  simp only at hvs hlen hk
  subst hvs
  cases op
  all_goals first | (cases hk; done) | skip
  case arrayOf =>
    cases hk
    obtain ⟨n, rfl⟩ := List.length_eq_one_iff.1 (Nat.succ.inj hlen)
    exact h.elim fun t ht => ⟨_, ht, rfl⟩
  case closure =>
    cases hk
    obtain rfl : vs = [] := List.eq_nil_of_length_eq_zero (Nat.succ.inj hlen)
    obtain ⟨j, fn, hj, -⟩ := h
    exact ⟨_, hj, rfl⟩
  case callVirtual | callInterface =>
    cases hk
    obtain rfl : vs = [] := List.eq_nil_of_length_eq_zero (Nat.succ.inj hlen)
    exact h.elim fun _ hx => ⟨_, hx.1, rfl⟩
  all_goals
    cases hk
    obtain rfl : vs = [] := List.eq_nil_of_length_eq_zero (Nat.succ.inj hlen)
    exact h.elim fun _ hx => ⟨_, hx, rfl⟩

namespace Layout

variable {c : Chunk} {G : Nat → Option Point} {o : Nat} {p : Point}

theorem opcode?_eq (h : Layout c G) (hp : G o = some p) : c.opcode? o = some p.op := by
  rw [Chunk.opcode?, h.byte hp]
  exact Opcode.ofByte?_byte p.op

theorem start_iff (h : Layout c G) (hpos : 0 < c.code.size) (ho : c.Start o) :
    o = c.code.size ∨ ∃ p, G o = some p := by
  induction ho with
  | zero => exact .inr (h.start hpos)
  | @next o op _ hop ih =>
    rcases ih with rfl | ⟨p, hp⟩
    · -- no instruction starts at the end
      rw [Chunk.opcode?, Array.getElem?_eq_none (Nat.le_refl _)] at hop
      cases hop
    · rw [h.opcode?_eq hp] at hop
      cases hop
      rcases Nat.lt_or_ge (o + p.op.size) c.code.size with hlt | hge
      · exact .inr (h.next hp hlt)
      · exact .inl (Nat.le_antisymm (h.fits hp) hge)

theorem exists_before (h : Layout c G) {a : Nat} {r : Point} (hp : G o = some p) (hr : G a = some r)
    (hlt : a < o) : ∃ b q, G b = some q ∧ b + q.op.size = o := by
  -- induction on the distance
  induction hn : o - a using Nat.strongRecOn generalizing a r with
  | ind n ih =>
    have hle := h.apart hr hp hlt
    rcases Nat.eq_or_lt_of_le hle with heq | hlt'
    · exact ⟨a, r, hr, heq⟩
    · have := h.lt hp
      have := r.op.size_pos
      obtain ⟨q, hq⟩ := h.next hr (by omega)
      exact ih _ (by omega) hq hlt' rfl

theorem start_of_point (h : Layout c G) : ∀ (o : Nat) (p : Point), G o = some p → c.Start o := by
  intro o
  -- induction on the offset: the point in front ends where this one starts
  induction o using Nat.strongRecOn with
  | ind o ih =>
    intro p hp
    rcases Nat.eq_zero_or_pos o with rfl | hpos
    · exact .zero
    · obtain ⟨q, hq⟩ := h.start (Nat.lt_of_le_of_lt (Nat.zero_le _) (h.lt hp))
      obtain ⟨a, r, hr, hend⟩ := h.exists_before hp hq hpos
      rw [← hend]
      exact .next (ih a (by have := r.op.size_pos; omega) r hr) (h.opcode?_eq hr)

theorem operands?_eq (h : Layout c G) (hp : G o = some p) : c.operands? o = some p.operands := by
  simp only [Chunk.operands?, h.byte hp, Opcode.ofByte?_byte, bind_eq_bind, bind_some]
  exact h.operands hp

theorem instr (h : Layout c G) (hp : G o = some p) : c.Instr o p.op p.operands :=
  ⟨h.start_of_point o p hp, h.opcode?_eq hp, h.operands?_eq hp⟩

theorem point_of_instr (h : Layout c G) {op : Opcode} {vs : List Nat} (hi : c.Instr o op vs) :
    ∃ p, G o = some p ∧ p.op = op ∧ p.operands = vs := by
  have hlt : o < c.code.size := by
    by_contra hge
    have := hi.opcode
    rw [Chunk.opcode?, Array.getElem?_eq_none (by omega)] at this
    cases this
  rcases h.start_iff (by omega) hi.start with rfl | ⟨p, hp⟩
  · omega
  · have hop := h.opcode?_eq hp
    have hvs := h.operands?_eq hp
    rw [hi.opcode] at hop
    rw [hi.operands] at hvs
    exact ⟨p, hp, (some.inj hop).symm, (some.inj hvs).symm⟩

theorem length_of_operandsAt? {ws : List Opcode.Width} {i : Nat} {vs : List Nat}
    (h : c.operandsAt? ws i = some vs) : vs.length = ws.length := by
  induction ws generalizing i vs with
  | nil =>
    cases h
    rfl
  | cons w ws ih =>
    cases w with
    | one | two =>
      simp only [Chunk.operandsAt?, bind_eq_bind, pure_def, bind_eq_some_iff,
        some.injEq] at h
      obtain ⟨n, -, ms, hms, rfl⟩ := h
      simp [ih hms]

theorem operands_length (h : Layout c G) (hp : G o = some p) : p.operands.length = p.op.operands.length :=
  length_of_operandsAt? (h.operands hp)

end Layout

namespace Function.Certified

variable {image : Image} {f : Function} {mode : Nat → Option CaptureMode} {G : Nat → Option Point} {o : Nat}
  {facts : SlotFacts}

def depthOf (G : Nat → Option Point) (o : Nat) : Nat := ((G o).map Point.depth).getD 0

theorem depthOf_eq {p : Point} (hp : G o = some p) : depthOf G o = p.depth := by
  rw [depthOf, hp]
  rfl

theorem depthOf_of_lands {d : Nat} (h : Lands G o d facts) : depthOf G o = d := by
  obtain ⟨q, hq, hd, -⟩ := h
  rw [depthOf_eq hq, hd]

theorem modelsDepth (h : f.Certified image mode G) : f.ModelsDepth (depthOf G) where
  start := by
    obtain ⟨p, hp, hd, -⟩ := h.entry
    rw [depthOf_eq hp, hd]
  recorded := by
    intro o op vs hi
    obtain ⟨p, hp, -, -⟩ := h.layout.point_of_instr hi
    rw [depthOf_eq hp]
    exact h.layout.depth hp
  enough := by
    intro o op vs e hi he
    obtain ⟨p, hp, rfl, rfl⟩ := h.layout.point_of_instr hi
    rw [h.effect hp] at he
    cases he
    rw [depthOf_eq hp]
    exact h.enough hp
  next := by
    intro o op vs e hi he hfinal
    obtain ⟨p, hp, rfl, rfl⟩ := h.layout.point_of_instr hi
    rw [h.effect hp] at he
    cases he
    have hfalls : p.falls = true := by
      unfold Point.falls
      unfold Opcode.isFinal at hfinal
      split at hfinal
      all_goals simp_all
    rw [depthOf_eq hp, depthOf_of_lands (h.falls hp hfalls)]
    rfl
  jump := by
    intro o op n e hi he hjump
    obtain ⟨p, hp, rfl, hn⟩ := h.layout.point_of_instr hi
    rw [← hn, h.effect hp] at he
    cases he
    have hland := h.jumps hp hjump
    rw [Point.target, hn, List.headD_cons] at hland
    rw [depthOf_eq hp, depthOf_of_lands hland]
    rfl

theorem inRange_of_found (h : f.Certified image mode G) {k : Capture}
    (hk : k.Found mode (f.captures.map (·.byRef)) facts) : k.InRange f := by
  obtain ⟨i, hi, hk⟩ := hk
  have hcaps : ∀ {b : Bool}, (f.captures.map (·.byRef))[i]? = some b → (i : Int) < f.captures.length := by
    intro b hb
    have := (List.getElem?_eq_some_iff.1 hb).1
    simpa using this
  unfold Capture.InRange
  rw [hi]
  cases hs : k.source with
  | slot =>
    simp only [hs] at hk
    obtain ⟨⟨m, hm, -⟩, hb⟩ := hk
    exact ⟨by omega, h.slots hm, hb⟩
  | slotCell =>
    simp only [hs] at hk
    obtain ⟨⟨m, hm⟩, -, hb⟩ := hk
    exact ⟨by omega, h.slots hm, hb⟩
  | free | freeCell =>
    simp only [hs] at hk
    exact ⟨by omega, hcaps hk.1, hk.2⟩
  | absent => simp only [hs] at hk

theorem wellFormed (h : f.Certified image mode G) : f.WellFormed image where
  covers := by
    obtain ⟨o, p, hp, -, hend⟩ := h.last
    rw [← hend]
    exact .next (h.layout.start_of_point o p hp) (h.layout.opcode?_eq hp)
  known := by
    intro o ho hlt
    rcases h.layout.start_iff (by omega) ho with rfl | ⟨p, hp⟩
    · omega
    · exact ⟨p.op, p.operands, h.layout.instr hp, h.layout.operands_length hp, h.layout.fits hp⟩
  effects := by
    intro o op vs hi
    obtain ⟨p, hp, rfl, rfl⟩ := h.layout.point_of_instr hi
    exact ⟨_, h.effect hp⟩
  last := by
    obtain ⟨o, p, hp, hop, hend⟩ := h.last
    have hi := h.layout.instr hp
    have hnil : p.operands = [] := by
      have := h.layout.operands_length hp
      rcases hop with hop | hop
      · rw [hop] at this
        exact List.eq_nil_of_length_eq_zero this
      · rw [hop] at this
        exact List.eq_nil_of_length_eq_zero this
    rw [hnil] at hi
    exact ⟨o, p.op, hi, hop, hend⟩
  targets := by
    intro o op n hi hjump
    obtain ⟨p, hp, rfl, hn⟩ := h.layout.point_of_instr hi
    obtain ⟨q, hq, -, -⟩ := h.jumps hp hjump
    rw [Point.target, hn, List.headD_cons] at hq
    exact ⟨h.layout.start_of_point _ q hq, h.layout.lt hq⟩
  depths := ⟨depthOf G, h.modelsDepth⟩
  slots := by
    intro o op s hi hop
    obtain ⟨p, hp, rfl, hs⟩ := h.layout.point_of_instr hi
    have hv := h.valid hp
    unfold Point.Valid at hv
    rw [hs] at hv
    unfold Opcode.takesSlot at hop
    split at hop
    case h_6 => cases hop
    all_goals
      rename_i heq
      simp only [heq] at hv
    · exact h.slots hv.choose_spec.1
    · exact h.slots hv.choose_spec
    · exact h.slots hv.1
    · exact h.slots hv.1.choose_spec
    · exact h.slots hv.1.choose_spec
  free := by
    intro o op i hi hop
    obtain ⟨p, hp, rfl, hi'⟩ := h.layout.point_of_instr hi
    have hv := h.valid hp
    unfold Point.Valid at hv
    rw [hi'] at hv
    have hlt : ∀ {b : Bool}, (f.captures.map (·.byRef))[i]? = some b → i < f.captures.length := by
      intro b hb
      simpa using (List.getElem?_eq_some_iff.1 hb).1
    unfold Opcode.takesFree at hop
    split at hop
    case h_4 => cases hop
    all_goals
      rename_i heq
      simp only [heq] at hv
      exact hlt hv
  pool := by
    intro o op i vs isKind hi hop
    obtain ⟨p, hp, rfl, hi'⟩ := h.layout.point_of_instr hi
    have hv := h.valid hp
    have hlen := h.layout.operands_length hp
    exact hv.pool hi' hlen hop
  captures := by
    intro o i j hi hj
    obtain ⟨p, hp, hop, hi'⟩ := h.layout.point_of_instr hi
    have hv := h.valid hp
    unfold Point.Valid at hv
    simp only [hop, hi'] at hv
    obtain ⟨j', fn, hj', hfn, hk⟩ := hv
    rw [hj] at hj'
    cases hj'
    exact ⟨fn, hfn, fun k hkm => h.inRange_of_found (hk k hkm)⟩

end Function.Certified

end TreeMachine
