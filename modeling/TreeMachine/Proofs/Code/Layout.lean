import Mathlib.Algebra.GroupWithZero.Nat
import Mathlib.Tactic.SplitIfs
import TreeMachine.Codegen.Emit

/-!
# The layout of code

Where the instructions of a chunk are. A *point* is an instruction together with what is known
before it runs; a layout maps the offsets at which instructions start to their points, and
`Layout c G` says that the bytes of `c` are these instructions, one behind the other.

* **`Layout.write`**: writing an instruction adds its point at the end.
* **`Layout.patch`**: changing the distance of a jump changes that point and no other one.

Both rest on `operandsAt?_writeOperands`: operands that fit their widths are read back as they were
written.
-/

open Array Option

namespace TreeMachine

open Chunk Codegen

/-! ## Bytes and operands -/

def Opcode.widths (ws : List Opcode.Width) : Nat := (ws.map Opcode.Width.bytes).sum

theorem Opcode.size_eq (op : Opcode) : op.size = 1 + Opcode.widths op.operands := by
  cases op <;> rfl

theorem Opcode.size_pos (op : Opcode) : 0 < op.size := by
  rw [op.size_eq]
  omega

namespace Chunk

@[simp] theorem code_write (c : Chunk) (b : UInt8) (d : Int) : (c.write b d).code = c.code.push b := rfl

@[simp] theorem constants_write (c : Chunk) (b : UInt8) (d : Int) : (c.write b d).constants = c.constants := rfl

def setDistance (c : Chunk) (offset n : Nat) : Chunk :=
  { c with
    code := (c.code.setIfInBounds offset (n / 256).toUInt8).setIfInBounds
      (offset + 1) (n % 256).toUInt8 }

@[simp] theorem size_setDistance (c : Chunk) (offset n : Nat) : (c.setDistance offset n).code.size = c.code.size := by
  simp [setDistance]

theorem pair?_eq {c : Chunk} {o n : Nat} (hn : n < 65536) (hhigh : c.code[o]? = some (n / 256).toUInt8)
    (hlow : c.code[o + 1]? = some (n % 256).toUInt8) : c.pair? o = some n := by
  have hh : (n / 256).toUInt8.toNat = n / 256 := by
    rw [Nat.toUInt8, UInt8.toNat_ofNat', Nat.mod_eq_of_lt (by omega)]
  have hl : (n % 256).toUInt8.toNat = n % 256 := by
    rw [Nat.toUInt8, UInt8.toNat_ofNat', Nat.mod_eq_of_lt (by omega)]
  have hsum : n / 256 * 256 + n % 256 = n := by omega
  simp only [pair?, byte?, hhigh, hlow, map_some, bind_eq_bind, bind_some, pure_def, hh, hl,
    hsum]

theorem getElem?_setDistance_of_ne (c : Chunk) {o i : Nat} (n : Nat) (h : i ≠ o) (h' : i ≠ o + 1) :
    (c.setDistance o n).code[i]? = c.code[i]? := by
  rw [setDistance, getElem?_setIfInBounds_ne (Ne.symm h'), getElem?_setIfInBounds_ne (Ne.symm h)]

theorem pair?_setDistance {c : Chunk} {o n : Nat} (ho : o + 1 < c.code.size) (hn : n < 65536) :
    (c.setDistance o n).pair? o = some n := by
  refine pair?_eq hn ?_ ?_
  · rw [setDistance, getElem?_setIfInBounds_ne (by omega), getElem?_setIfInBounds_self_of_lt (by omega)]
  · rw [setDistance, getElem?_setIfInBounds_self_of_lt (by simp only [size_setIfInBounds]; omega)]

theorem operandsAt?_congr {c c' : Chunk} {ws : List Opcode.Width} :
    ∀ {o : Nat}, (∀ i, o ≤ i → i < o + Opcode.widths ws → c'.code[i]? = c.code[i]?) →
      c'.operandsAt? ws o = c.operandsAt? ws o := by
  induction ws with
  | nil => intro o _; rfl
  | cons w ws ih =>
    intro o h
    cases w with
    | one =>
      simp only [Opcode.widths, List.map_cons, List.sum_cons, Opcode.Width.bytes] at h
      have h0 := h o (Nat.le_refl o) (by omega)
      have hrest := ih (o := o + 1) fun i hi hi' => h i (by omega) (by simp only [Opcode.widths] at hi'; omega)
      simp only [operandsAt?, byte?, h0, hrest]
    | two =>
      simp only [Opcode.widths, List.map_cons, List.sum_cons, Opcode.Width.bytes] at h
      have h0 := h o (Nat.le_refl o) (by omega)
      have h1 := h (o + 1) (by omega) (by omega)
      have hrest := ih (o := o + 2) fun i hi hi' => h i (by omega) (by simp only [Opcode.widths] at hi'; omega)
      simp only [operandsAt?, pair?, byte?, h0, h1, hrest]

end Chunk

namespace Codegen

@[simp] theorem constants_writeOperands (ws : List Opcode.Width) (vs : List Nat) (c : Chunk) :
    (writeOperands ws vs c).constants = c.constants := by
  induction ws, vs, c using writeOperands.induct with
  | case1 v vs ws c ih | case2 v vs ws c ih => rw [writeOperands, ih]; rfl
  | case3 ws vs c h h' => rw [writeOperands]; exact h; exact h'

theorem size_writeOperands (ws : List Opcode.Width) (vs : List Nat) (c : Chunk) (h : vs.length = ws.length) :
    (writeOperands ws vs c).code.size = c.code.size + Opcode.widths ws := by
  induction ws generalizing vs c with
  | nil => simp [writeOperands, Opcode.widths]
  | cons w ws ih =>
    cases vs with
    | nil => cases h
    | cons v vs =>
      have hlen : vs.length = ws.length := Nat.succ.inj h
      cases w with
      | one | two =>
        rw [writeOperands, ih _ _ hlen]
        simp only [code_write, size_push, Opcode.widths, List.map_cons, List.sum_cons,
          Opcode.Width.bytes]
        omega

theorem code_writeOperands_of_lt (ws : List Opcode.Width) (vs : List Nat) (c : Chunk) {i : Nat}
    (hi : i < c.code.size) : (writeOperands ws vs c).code[i]? = c.code[i]? := by
  induction ws, vs, c using writeOperands.induct with
  | case1 v vs ws c ih =>
    rw [writeOperands, ih (by simp only [code_write, size_push]; omega)]
    simp [getElem?_push, Nat.ne_of_lt hi]
  | case2 v vs ws c ih =>
    rw [writeOperands, ih (by simp only [code_write, size_push]; omega)]
    have h1 : i ≠ c.code.size + 1 := by omega
    simp [getElem?_push, Nat.ne_of_lt hi, h1]
  | case3 ws vs c h h' => rw [writeOperands]; exact h; exact h'

theorem operandsAt?_writeOperands (ws : List Opcode.Width) (vs : List Nat) (c : Chunk)
    (hlen : vs.length = ws.length) (hfit : oversized? ws vs = none) :
    (writeOperands ws vs c).operandsAt? ws c.code.size = some vs := by
  induction ws generalizing vs c with
  | nil =>
    obtain rfl : vs = [] := List.eq_nil_of_length_eq_zero hlen
    rfl
  | cons w ws ih =>
    cases vs with
    | nil => cases hlen
    | cons v vs =>
      have hlen' : vs.length = ws.length := Nat.succ.inj hlen
      cases w with
      | one =>
        simp only [oversized?] at hfit
        split_ifs at hfit with hv
        have hrest := ih vs (c.write v.toUInt8 (-1)) hlen' hfit
        simp only [code_write, size_push] at hrest
        have hbyte : (writeOperands ws vs (c.write v.toUInt8 (-1))).code[c.code.size]? =
            some v.toUInt8 := by
          rw [code_writeOperands_of_lt _ _ _ (by simp)]
          simp
        have hv' : v.toUInt8.toNat = v := by
          rw [Nat.toUInt8, UInt8.toNat_ofNat', Nat.mod_eq_of_lt hv]
        simp only [writeOperands, operandsAt?, byte?, hbyte, hrest, map_some,
          bind_eq_bind, bind_some, hv', pure_def]
      | two =>
        simp only [oversized?] at hfit
        split_ifs at hfit with hv
        have hrest := ih vs ((c.write (v / 256).toUInt8 (-1)).write (v % 256).toUInt8 (-1)) hlen' hfit
        simp only [code_write, size_push] at hrest
        have hhigh : (writeOperands ws vs ((c.write (v / 256).toUInt8 (-1)).write (v % 256).toUInt8
            (-1))).code[c.code.size]? = some (v / 256).toUInt8 := by
          rw [code_writeOperands_of_lt _ _ _ (by simp only [code_write, size_push]; omega)]
          rw [code_write, code_write, getElem?_push,
            if_neg (by rw [size_push]; omega), getElem?_push_size]
        have hlow : (writeOperands ws vs ((c.write (v / 256).toUInt8 (-1)).write (v % 256).toUInt8
            (-1))).code[c.code.size + 1]? = some (v % 256).toUInt8 := by
          rw [code_writeOperands_of_lt _ _ _ (by simp only [code_write, size_push]; omega)]
          simp only [code_write, getElem?_push, size_push, if_true]
        simp only [writeOperands, operandsAt?, pair?_eq hv hhigh hlow, hrest, bind_eq_bind,
          bind_some, pure_def]

theorem size_instruction {op : Opcode} {vs : List Nat} (h : vs.length = op.operands.length) (c : Chunk) (d : Int) :
    (writeOperands op.operands vs (c.write op.byte d)).code.size = c.code.size + op.size := by
  rw [size_writeOperands _ _ _ h, op.size_eq]
  simp only [code_write, size_push]
  omega

theorem code_instruction_of_lt (op : Opcode) (vs : List Nat) {c : Chunk} (d : Int) {i : Nat} (hi : i < c.code.size) :
    (writeOperands op.operands vs (c.write op.byte d)).code[i]? = c.code[i]? := by
  rw [code_writeOperands_of_lt _ _ _ (by simp only [code_write, size_push]; omega), code_write,
    getElem?_push, if_neg (Nat.ne_of_lt hi)]

theorem instruction_read {op : Opcode} {vs : List Nat} (hlen : vs.length = op.operands.length)
    (hfit : oversized? op.operands vs = none) (c : Chunk) (d : Int) :
    (writeOperands op.operands vs (c.write op.byte d)).code[c.code.size]? = some op.byte ∧
      (writeOperands op.operands vs (c.write op.byte d)).operandsAt? op.operands (c.code.size + 1) = some vs := by
  constructor
  · rw [code_writeOperands_of_lt _ _ _ (by simp)]
    simp
  · simpa using operandsAt?_writeOperands op.operands vs (c.write op.byte d) hlen hfit

end Codegen

/-! ## Recorded depths -/

namespace Chunk

def DepthsCover (c : Chunk) : Prop := ∀ ds, c.depths = some ds → ds.size = c.code.size

def DepthAt (c : Chunk) (o : Nat) (d : Int) : Prop := ∀ ds, c.depths = some ds → ds[o]? = some d

variable {c : Chunk}

theorem DepthsCover.write (h : c.DepthsCover) (b : UInt8) (d : Int) : (c.write b d).DepthsCover := by
  intro ds hds
  obtain ⟨ds', hds', rfl⟩ := map_eq_some_iff.1 hds
  simp [h ds' hds']

variable {o : Nat} {d : Int}

theorem DepthAt.write (h : c.DepthAt o d) (b : UInt8) (d' : Int) : (c.write b d').DepthAt o d := by
  intro ds hds
  obtain ⟨ds', hds', rfl⟩ := map_eq_some_iff.1 hds
  have ho := h ds' hds'
  have hlt : o < ds'.size := (Array.getElem?_eq_some_iff.1 ho).1
  rw [Array.getElem?_push, if_neg (Nat.ne_of_lt hlt), ho]

theorem DepthsCover.depthAt_write (h : c.DepthsCover) (b : UInt8) (d : Int) : (c.write b d).DepthAt c.code.size d := by
  intro ds hds
  obtain ⟨ds', hds', rfl⟩ := map_eq_some_iff.1 hds
  rw [← h ds' hds']
  simp

variable {ws : List Opcode.Width} {vs : List Nat}

theorem DepthsCover.writeOperands (h : c.DepthsCover) : (Codegen.writeOperands ws vs c).DepthsCover := by
  induction ws, vs, c using Codegen.writeOperands.induct with
  | case1 v vs ws c ih => rw [Codegen.writeOperands]; exact ih (h.write _ _)
  | case2 v vs ws c ih => rw [Codegen.writeOperands]; exact ih ((h.write _ _).write _ _)
  | case3 ws vs c h1 h2 => rwa [Codegen.writeOperands]; exact h1; exact h2

theorem DepthAt.writeOperands (h : c.DepthAt o d) : (Codegen.writeOperands ws vs c).DepthAt o d := by
  induction ws, vs, c using Codegen.writeOperands.induct with
  | case1 v vs ws c ih => rw [Codegen.writeOperands]; exact ih (h.write _ _)
  | case2 v vs ws c ih => rw [Codegen.writeOperands]; exact ih ((h.write _ _).write _ _)
  | case3 ws vs c h1 h2 => rwa [Codegen.writeOperands]; exact h1; exact h2

end Chunk

/-! ## Points -/

/-- What is known of slots: `(s, true)` says that slot `s` holds the cell of its variable, `(s, false)`
that it holds a plain value. -/
abbrev SlotFacts := List (Nat × Bool)

def SlotFacts.learn (facts : SlotFacts) (slot : Nat) (isCell : Bool) : SlotFacts :=
  (slot, isCell) :: facts.filter (·.1 ≠ slot)

structure Point where
  op : Opcode
  operands : List Nat
  effect : Effect
  depth : Nat
  facts : SlotFacts

namespace Point

def after (p : Point) : Nat := p.depth - p.effect.pop + p.effect.push

def factsAfter (p : Point) : SlotFacts :=
  match p.op, p.operands with
  | .storeLocal, [slot] => p.facts.learn slot false
  | .makeCell, [slot] => p.facts.learn slot true
  | _, _ => p.facts

def falls (p : Point) : Bool :=
  match p.op with
  | .jump | .ret | .retVoid => false
  | _ => true

def jumps (p : Point) : Bool :=
  match p.op with
  | .jump | .jumpIfFalse => true
  | _ => false

def target (p : Point) (o : Nat) : Nat := o + p.op.size + p.operands.headD 0

end Point

def putPoint (G : Nat → Option Point) (o : Nat) (p : Point) : Nat → Option Point :=
  fun o' => if o' = o then some p else G o'

theorem putPoint_self (G : Nat → Option Point) (o : Nat) (p : Point) : putPoint G o p o = some p :=
  if_pos rfl

variable {o o' : Nat}

theorem putPoint_ne (G : Nat → Option Point) (p : Point) (h : o' ≠ o) : putPoint G o p o' = G o' :=
  if_neg h

theorem putPoint_cases {G : Nat → Option Point} {p q : Point} (h : putPoint G o p o' = some q) :
    (o' = o ∧ q = p) ∨ (o' ≠ o ∧ G o' = some q) := by
  unfold putPoint at h
  split_ifs at h with ho
  · exact .inl ⟨ho, (some.inj h).symm⟩
  · exact .inr ⟨ho, h⟩

/-- The bytes of a chunk are the instructions that `G` gives at the offsets where they start. -/
structure Layout (c : Chunk) (G : Nat → Option Point) : Prop where
  byte : ∀ {o p}, G o = some p → c.code[o]? = some p.op.byte
  operands : ∀ {o p}, G o = some p → c.operandsAt? p.op.operands (o + 1) = some p.operands
  fits : ∀ {o p}, G o = some p → o + p.op.size ≤ c.code.size
  apart : ∀ {o p o' p'}, G o = some p → G o' = some p' → o < o' → o + p.op.size ≤ o'
  start : 0 < c.code.size → ∃ p, G 0 = some p
  next : ∀ {o p}, G o = some p → o + p.op.size < c.code.size → ∃ q, G (o + p.op.size) = some q
  cover : c.DepthsCover
  depth : ∀ {o p}, G o = some p → c.DepthAt o p.depth

namespace Layout

variable {c : Chunk} {G : Nat → Option Point} {o : Nat} {p : Point}

theorem empty (h : c.code = #[]) (hd : c.DepthsCover) : Layout c fun _ => none where
  byte h := nomatch h
  operands h := nomatch h
  fits h := nomatch h
  apart h := nomatch h
  start h0 := by simp [h] at h0
  next h := nomatch h
  cover := hd
  depth h := nomatch h

theorem lt (h : Layout c G) (hp : G o = some p) : o < c.code.size := by
  have := h.fits hp
  have := p.op.size_pos
  omega

theorem constants (h : Layout c G) (ks : Array Constant) : Layout { c with constants := ks } G where
  byte := h.byte
  operands hp := by
    rw [← h.operands hp]
    exact operandsAt?_congr fun _ _ _ => rfl
  fits := h.fits
  apart := h.apart
  start := h.start
  next := h.next
  cover := h.cover
  depth := h.depth

theorem write (h : Layout c G) (hlen : p.operands.length = p.op.operands.length)
    (hfit : oversized? p.op.operands p.operands = none) :
    Layout (writeOperands p.op.operands p.operands (c.write p.op.byte p.depth))
      (putPoint G c.code.size p) := by
  unfold putPoint
  have hsize := size_instruction hlen c p.depth
  have hold := fun i => code_instruction_of_lt p.op p.operands p.depth (c := c) (i := i)
  obtain ⟨hbyte, hoperands⟩ := instruction_read hlen hfit c p.depth
  have hpos := p.op.size_pos
  refine
    { byte := fun {o q} hq => ?_
      operands := fun {o q} hq => ?_
      fits := fun {o q} hq => ?_
      apart := fun {o q o' q'} hq hq' hlt => ?_
      start := fun _ => ?_
      next := fun {o q} hq hlt => ?_
      cover := (h.cover.write _ _).writeOperands
      depth := fun {o q} hq => ?_ }
  · split_ifs at hq with ho
    · cases hq
      subst ho
      exact hbyte
    · rw [hold o (h.lt hq), h.byte hq]
  · split_ifs at hq with ho
    · cases hq
      subst ho
      exact hoperands
    · rw [← h.operands hq]
      have hf := h.fits hq
      rw [q.op.size_eq] at hf
      exact operandsAt?_congr fun i _ hi => hold i (by omega)
  · rw [hsize]
    split_ifs at hq with ho
    · cases hq
      omega
    · have := h.fits hq
      omega
  · split_ifs at hq hq' with ho ho'
    · omega
    · have := h.lt hq'
      omega
    · have := h.fits hq
      omega
    · exact h.apart hq hq' hlt
  · rcases Nat.eq_zero_or_pos c.code.size with h0 | h0
    · exact ⟨p, by simp [h0]⟩
    · obtain ⟨q, hq⟩ := h.start h0
      exact ⟨q, by rw [if_neg (by omega), hq]⟩
  · rw [hsize] at hlt
    split_ifs at hq with ho
    · cases hq
      omega
    · have hf := h.fits hq
      rcases Nat.eq_or_lt_of_le hf with he | hl
      · exact ⟨p, if_pos he⟩
      · obtain ⟨r, hr⟩ := h.next hq hl
        exact ⟨r, by rw [if_neg (by omega), hr]⟩
  · split_ifs at hq with ho
    · cases hq
      subst ho
      exact (h.cover.depthAt_write _ _).writeOperands
    · exact ((h.depth hq).write _ _).writeOperands

theorem operands_of_jumps (h : p.jumps = true) : p.op.operands = [.two] := by
  unfold Point.jumps at h
  split at h
  · rename_i hop
    rw [hop]
    rfl
  · rename_i hop
    rw [hop]
    rfl
  · cases h

theorem patch (h : Layout c G) {n : Nat} (hp : G o = some p) (hj : p.jumps = true) (hn : n ≤ 65535) :
    Layout (c.setDistance (o + 1) n) (putPoint G o { p with operands := [n] }) := by
  unfold putPoint
  have hwidth := operands_of_jumps hj
  have hsize : p.op.size = 3 := by rw [p.op.size_eq, hwidth]; rfl
  have hfits := h.fits hp
  rw [hsize] at hfits
  -- the two bytes of the distance change, and no other one
  have hother := fun i => getElem?_setDistance_of_ne c (o := o + 1) (i := i) n
  refine
    { byte := fun {o' q} hq => ?_
      operands := fun {o' q} hq => ?_
      fits := fun {o' q} hq => ?_
      apart := fun {o₁ q₁ o₂ q₂} h₁ h₂ hlt => ?_
      start := fun h0 => ?_
      next := fun {o' q} hq hlt => ?_
      cover := fun ds hds => by rw [size_setDistance]; exact h.cover ds hds
      depth := fun {o' q} hq => ?_ }
  · split_ifs at hq with ho
    · cases hq
      subst ho
      rw [hother _ (by omega) (by omega)]
      exact (h.byte hp :)
    · rw [hother o' ?_ ?_, h.byte hq]
      all_goals
        rcases Nat.lt_or_gt_of_ne ho with hl | hl
        · omega
        · have := h.apart hp hq hl
          omega
  · split_ifs at hq with ho
    · cases hq
      subst ho
      show operandsAt? _ p.op.operands _ = _
      rw [hwidth]
      simp only [operandsAt?, pair?_setDistance (c := c) (o := o' + 1) (by omega) (Nat.lt_succ_of_le hn),
        bind_eq_bind, bind_some, pure_def]
    · rw [← h.operands hq]
      have hf := h.fits hq
      rw [q.op.size_eq] at hf
      refine operandsAt?_congr fun i hi hi' => hother i ?_ ?_
      all_goals
        rcases Nat.lt_or_gt_of_ne ho with hl | hl
        · have := h.apart hq hp hl
          rw [q.op.size_eq] at this
          omega
        · have := h.apart hp hq hl
          omega
  · simp only [size_setDistance]
    split_ifs at hq with ho
    · cases hq
      rw [ho]
      exact (h.fits hp :)
    · exact h.fits hq
  · split_ifs at h₁ h₂ with ho₁ ho₂ ho₂
    · omega
    · cases h₁
      subst ho₁
      exact (h.apart hp h₂ hlt :)
    · cases h₂
      subst ho₂
      exact h.apart h₁ hp hlt
    · exact h.apart h₁ h₂ hlt
  · simp only [size_setDistance] at h0
    obtain ⟨q, hq⟩ := h.start h0
    by_cases ho : 0 = o
    · exact ⟨_, if_pos ho⟩
    · exact ⟨q, by rw [if_neg ho, hq]⟩
  · simp only [size_setDistance] at hlt
    have hnext : ∃ r, G (o' + q.op.size) = some r := by
      split_ifs at hq with ho
      · cases hq
        subst ho
        exact (h.next hp hlt :)
      · exact h.next hq hlt
    obtain ⟨r, hr⟩ := hnext
    by_cases ho : o' + q.op.size = o
    · exact ⟨_, if_pos ho⟩
    · exact ⟨r, by rw [if_neg ho, hr]⟩
  · split_ifs at hq with ho
    · cases hq
      subst ho
      exact (h.depth hp :)
    · exact h.depth hq

end Layout

end TreeMachine
