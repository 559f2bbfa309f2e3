import TreeMachine.Code.Listing
import TreeMachine.Proofs.Code.Layout
import TreeMachine.Proofs.Codegen.Steps

/-!
# Emitted code is read back

A function's code is made by four calls: a constant is asked for, an instruction is emitted, a jump is emitted whose
target is not known yet, and such a jump is given the end of the code as its target. `Emission` says which calls led to
a state; its transcript of them is what a reader of the finished code finds.

* **`Chunk.decode`** reads code from its first byte, an opcode and its operands at a time.
* **`Chunk.Stands`** says that lines of a transcript stand in code one behind the other. Emitting adds a line, and
  giving a jump its target changes one.
-/

open Option

namespace TreeMachine

open Codegen Listing

variable {s s' : CodegenState} {k : Constant} {vs : List Nat} {n : Nat} {op : Opcode} {r : Transcript}

/-! ## Transcripts -/

inductive Asked where
  | operands (vs : List Nat)
  /-- A jump that leads nowhere yet, with the offset of its operand. -/
  | pending (o : Nat)
  | target (t : Nat)

structure Line where
  op : Opcode
  asked : Asked

namespace Line

def operands (l : Line) (o : Nat) : List Nat :=
  match l.asked with
  | .operands vs => vs
  | .pending _ => [65535]
  | .target t => [t - (o + l.op.size)]

/-- Lines with the offsets at which they stand, from an offset on. -/
def placed : Nat → List Line → List (Nat × Line)
  | _, [] => []
  | o, l :: ls => (o, l) :: placed (o + l.op.size) ls

/-- The line may stand at an offset: a jump does not lead backwards. -/
def Sits (l : Line) (o : Nat) : Prop :=
  match l.asked with
  | .operands _ => True
  | .pending p => p = o + 1 ∧ l.op.operands = [.two]
  | .target t => o + l.op.size ≤ t

end Line

/-- The calls that made the code of a function: the instructions that were emitted, and the constants that were asked
for with the places that were given. -/
structure Transcript where
  lines : List Line := []
  requests : List (Nat × Constant) := []

namespace Chunk

variable {c c' : Chunk} {o e : Nat} {l : Line} {ls : List Line}

/-! ## Reading -/

/-- The instructions from an offset on with their offsets; each takes at least one byte, so `n` need not exceed the size
of the code. -/
def decodeFrom (c : Chunk) : (n : Nat) → (o : Nat) → Option (List (Nat × Opcode × List Nat))
  | 0, o => if o = c.code.size then some [] else none
  | n + 1, o =>
    if o = c.code.size then some []
    else do
      let op ← (← c.code[o]?) |> Opcode.ofByte?
      let vs ← c.operands? o
      return (o, op, vs) :: (← decodeFrom c n (o + op.size))

/-- Lines stand in the code one behind the other, from an offset up to another one. -/
def Stands (c : Chunk) : Nat → List Line → Nat → Prop
  | o, [], e => o = e
  | o, l :: ls, e => (c.code[o]? = some l.op.byte ∧ c.operandsAt? l.op.operands (o + 1) = some (l.operands o) ∧
      l.Sits o) ∧
    c.Stands (o + l.op.size) ls e

theorem Stands.le (h : c.Stands o ls e) : o ≤ e := by
  induction ls generalizing o with
  | nil => exact Nat.le_of_eq h
  | cons l ls ih => exact Nat.le_trans (Nat.le_add_right _ _) (ih h.2)

theorem stands_append {ms : List Line} : c.Stands o (ls ++ ms) e ↔ ∃ m, c.Stands o ls m ∧ c.Stands m ms e := by
  induction ls generalizing o with
  | nil => simp [Stands]
  | cons l ls ih => simp [Stands, ih, and_assoc]

theorem Stands.congr (h : c.Stands o ls e) (hcode : ∀ i, o ≤ i → i < e → c'.code[i]? = c.code[i]?) :
    c'.Stands o ls e := by
  induction ls generalizing o with
  | nil => exact h
  | cons l ls ih =>
    obtain ⟨⟨hbyte, hoperands, hsits⟩, hrest⟩ := h
    have hle := hrest.le
    have hsize := l.op.size_eq
    refine ⟨⟨?_, ?_, hsits⟩, ih hrest fun i hi hlt => hcode i (by omega) hlt⟩
    · rw [hcode o (Nat.le_refl o) (by omega), hbyte]
    · rw [← hoperands]
      exact operandsAt?_congr fun i hi hlt => hcode i (by omega) (by omega)

theorem Stands.decodeFrom (h : c.Stands o ls c.code.size) (hn : c.code.size ≤ o + n) :
    c.decodeFrom n o = some ((Line.placed o ls).map fun x => (x.1, x.2.op, x.2.operands x.1)) := by
  induction ls generalizing o n with
  | nil =>
    cases n with
    | zero => exact if_pos h
    | succ n => exact if_pos h
  | cons l ls ih =>
    obtain ⟨⟨hbyte, hoperands, -⟩, hrest⟩ := h
    have hpos := l.op.size_pos
    have hle := hrest.le
    cases n with
    | zero => omega
    | succ n =>
      have hread : c.operands? o = some (l.operands o) := by
        simp only [operands?, hbyte, bind_eq_bind, bind_some, Opcode.ofByte?_byte, hoperands]
      rw [Chunk.decodeFrom, if_neg (by omega)]
      simp only [hbyte, bind_eq_bind, bind_some, Opcode.ofByte?_byte, hread,
        ih hrest (n := n) (by omega), pure_def, Line.placed, List.map_cons]

theorem Stands.write (h : c.Stands 0 ls c.code.size) (hlen : vs.length = l.op.operands.length)
    (hfit : oversized? l.op.operands vs = none) (hvs : l.operands c.code.size = vs) (hsits : l.Sits c.code.size)
    (d : Int) : (writeOperands l.op.operands vs (c.write l.op.byte d)).Stands 0 (ls ++ [l])
      (writeOperands l.op.operands vs (c.write l.op.byte d)).code.size := by
  obtain ⟨hbyte, hoperands⟩ := instruction_read hlen hfit c d
  rw [size_instruction hlen]
  refine stands_append.2 ⟨c.code.size, h.congr fun i _ hi => code_instruction_of_lt _ _ d hi, ?_, rfl⟩
  exact ⟨hbyte, hvs ▸ hoperands, hsits⟩

theorem Stands.patch {before after : List Line}
    (h : c.Stands 0 (before ++ ⟨op, .pending o⟩ :: after) c.code.size) (hn : c.code.size - o - 2 ≤ 65535) :
    (c.setDistance o (c.code.size - o - 2)).Stands 0 (before ++ ⟨op, .target c.code.size⟩ :: after) c.code.size := by
  obtain ⟨m, hbefore, ⟨hbyte, -, rfl, hwidth⟩, hafter⟩ := stands_append.1 h
  have hle := hafter.le
  have hsize : op.size = 3 := by rw [op.size_eq, hwidth]; rfl
  have hother := fun i => getElem?_setDistance_of_ne c (o := m + 1) (i := i) (c.code.size - (m + 1) - 2)
  simp only [hsize] at hafter hle
  refine stands_append.2 ⟨m, hbefore.congr fun i _ hi => hother i (by omega) (by omega), ⟨?_, ?_, ?_⟩, ?_⟩
  · rw [hother m (by omega) (by omega)]
    exact hbyte
  · have hpair := pair?_setDistance (c := c) (o := m + 1) (by omega) (Nat.lt_succ_of_le hn)
    simp only [hwidth, operandsAt?, hpair, bind_eq_bind, bind_some, pure_def, Line.operands, hsize]
    congr 2
  · simp only [Line.Sits, hsize]
    exact hle
  · simp only [hsize]
    exact hafter.congr fun i hi _ => hother i (by omega) (by omega)

/-! ## Listings -/

end Chunk

namespace Listing

variable {c : Chunk} {o : Nat} {ls : List Line} {U : Universe} {st : Store} {image : Image}
  {nested : Nat → Option (List String)}

/-- How wide the operands are that a listing reads. -/
def Style.widths : Style → List Opcode.Width
  | plain => []
  | byte | primitive => [.one]
  | invocation => [.one, .one]
  | constant | jump | closure => [.two]
  | items => [.two, .two]

end Listing

/-! ## Calls -/

namespace Codegen

structure Written (r : Transcript) (c : Chunk) : Prop where
  stands : c.Stands 0 r.lines c.code.size
  requests : ∀ x ∈ r.requests, c.constants[x.1]? = some x.2
  shared : ∀ {i j : Nat} {k : Constant}, c.constants[i]? = some k → c.constants[j]? = some k → k.isShareable = true →
    i = j
  depths : c.DepthsCover

theorem addConstant_new {c : Chunk} (hk : k.isShareable = true)
    (h : (c.addConstant k).2.constants ≠ c.constants) (i : Nat) : c.constants[i]? ≠ some k := by
  intro hi
  refine h ?_
  unfold Chunk.addConstant
  rw [if_pos hk]
  split
  · rfl
  · rename_i hnone
    have hne := Array.findIdx?_eq_none_iff.1 hnone k (Array.mem_of_getElem? hi)
    simp at hne

theorem Written.addConstant {c : Chunk} (h : Written r c) (k : Constant) :
    Written { r with requests := ((c.addConstant k).1, k) :: r.requests } (c.addConstant k).2 := by
  have hnew := addConstant_new (c := c) (k := k)
  obtain ⟨ks, hks, hi, hor⟩ := addConstant_spec c k
  rw [hks] at hnew ⊢
  have hkept : ∀ {i : Nat} {k : Constant}, c.constants[i]? = some k → ks[i]? = some k := fun {i k'} hk' => by
    rcases hor with rfl | rfl
    · exact hk'
    · rw [Array.getElem?_push, if_neg (Nat.ne_of_lt (Array.getElem?_eq_some_iff.1 hk').1), hk']
  refine ⟨h.stands.congr fun _ _ _ => rfl, List.forall_mem_cons.2 ⟨hi, fun x hx => hkept (h.requests x hx)⟩, ?_,
    h.depths⟩
  intro i j k' hi hj hk'
  rcases hor with rfl | rfl
  · exact h.shared hi hj hk'
  · have hnew : k' = k → ∀ i : Nat, c.constants[i]? ≠ some k' := by
      rintro rfl
      exact hnew hk' fun heq => by simpa using congrArg Array.size heq
    have hi : (c.constants.push k)[i]? = some k' := hi
    have hj : (c.constants.push k)[j]? = some k' := hj
    rw [Array.getElem?_push] at hi hj
    split at hi <;> split at hj
    · omega
    · exact absurd hj (hnew (some.inj hi).symm j)
    · exact absurd hi (hnew (some.inj hj).symm i)
    · exact h.shared hi hj hk'

theorem Written.emit {rs : List StackEntry}
    {e : Effect} (h : Written r s.function.chunk) (he : Emitted op vs rs e s s') {asked : Asked}
    (hvs : Line.operands ⟨op, asked⟩ s.function.chunk.code.size = vs)
    (hsits : Line.Sits ⟨op, asked⟩ s.function.chunk.code.size) :
    Written { r with lines := r.lines ++ [⟨op, asked⟩] } s'.function.chunk := by
  rw [he.eq]
  refine ⟨h.stands.write (l := ⟨op, asked⟩) he.length he.fits hvs hsits _, ?_, ?_, (h.depths.write _ _).writeOperands⟩
  all_goals simp only [writeInstruction, constants_writeOperands, Chunk.constants_write]
  · exact h.requests
  · exact h.shared

end Codegen

end TreeMachine
