import TreeMachine.Proofs.Codegen.Compile

/-!
# Compiled functions are well formed

Every function that can be reached from the artifact of a checked tree is well formed: its bytes are
whole instructions, its jumps lead to instructions of the same depth, and its operands are in range and
name what the instructions read. Nothing void may be passed or stored in the tree: the argument for a
void parameter leaves nothing on the stack, where the call expects a value, and the depths of two
branches may then differ (`voidArgument_not_wellFormed`).
-/

namespace TreeMachine.Compiler

/-- **Compiled functions are well formed**, those of the closures included, if nothing void is passed or
stored. -/
theorem reachable_wellFormed {U : Universe} {options : Options} {root : Lambda} {shape : Shape}
    {a : Artifact} (hU : U.Declared) (hroot : root.toExpr.Checked U) (hv : root.toExpr.Valued)
    (h : compile U options (some root) shape = .ok a) :
    ∀ f, a.Reachable f → f.WellFormed a.image := by
  intro f hf
  obtain ⟨hmain, -⟩ := compile_certified hU hroot hv h
  have hcertified : ∃ mode G, f.Certified a.image mode G := by
    rcases hf.eq_or_mem with rfl | hmem
    · exact hmain.certified
    · exact hmain.image f hmem
  obtain ⟨mode, G, hG⟩ := hcertified
  exact hG.wellFormed

/-! ## A counter -/

/-- The types of a function of a number and of one without parameters. -/
def counterTypes : Universe :=
  ((({} : Universe).delegate [.int32] (some .int32)).2.delegate [] (some .int32)).2

/-- A function that writes its parameter after a closure captured it, and then calls the closure or not. -/
def counter : Lambda :=
  let n : Var := ⟨1, "n", .int32⟩
  let get : Var := ⟨2, "get", .declared 1⟩
  let one : Expr := .constant ⟨some .int32, .int 1⟩ (some .int32)
  { id := 4
    name := "counter"
    params := [n]
    body := .block 5 [get] [
      .assign (.var get) (.lambda 3 "" [] (.var n) (some .int32) (.declared 1)),
      .assign (.var n) (.binary .add (.var n) one none .int32),
      .cond (.binary .less (.var n) one none .bool) (.var n) (.apply (.var get) [] (some .int32))]
    result := some .int32
    type := .declared 0 }

theorem counter_checked : counter.toExpr.Checked counterTypes := Expr.checked_of_within 5 (by decide +kernel)

theorem counterTypes_declared : counterTypes.Declared := .delegate _ _ (.delegate _ _ .empty)

/-- The counter compiles to two well-formed functions. -/
theorem counter_wellFormed : ∃ a,
    compile counterTypes .debug (some counter) ⟨[some .int32], some .int32⟩ = .ok a ∧
      a.image.size = 1 ∧ ∀ f, a.Reachable f → f.WellFormed a.image := by
  have hsize : (compile counterTypes .debug (some counter)
      ⟨[some .int32], some .int32⟩).toOption.map (·.image.size) = some 1 := by decide +kernel
  obtain ⟨a, ha, hsize⟩ := Except.exists_ok_of_map hsize
  exact ⟨a, ha, hsize, reachable_wellFormed counterTypes_declared counter_checked
    (Universe.NonVoid.valued (by decide) counter_checked) ha⟩

/-! ## A void parameter -/

/-- A class with a static method without a result, and one whose parameter is void; and the type of a
function of a truth value. -/
def voidTypes : Universe :=
  match Universe.declare {} ⟨"M", .classType none,
    [.staticMethod "V" [] none (some 0), .staticMethod "W" [none] (some .int32) (some 1)]⟩ with
  | .ok (_, U) => (U.delegate [.bool] (some .int32)).2
  | .error _ => {}

def voidResult : Method :=
  { owner := .declared 0, serial := 0, name := "V", isStatic := true, body := some (.host 0) }

def voidParam : Method :=
  { owner := .declared 0, serial := 1, name := "W", params := [none], result := some .int32
    isStatic := true, body := some (.host 1) }

/-- A function that adds to a number what the second method gives, or another number. -/
def voidArgument : Lambda :=
  let c : Var := ⟨1, "c", .bool⟩
  { id := 2
    name := ""
    params := [c]
    body := .binary .add (.constant ⟨some .int32, .int 1⟩ (some .int32))
      (.cond (.var c) (.callStatic voidParam [.callStatic voidResult []])
        (.constant ⟨some .int32, .int 2⟩ (some .int32))) none .int32
    result := some .int32
    type := .declared 1 }

theorem voidTypes_declared : voidTypes.Declared := by
  unfold voidTypes
  split
  · rename_i h
    exact .delegate _ _ (.declare .empty h)
  · exact .empty

theorem voidArgument_checked : voidArgument.toExpr.Checked voidTypes := Expr.checked_of_within 5 (by decide +kernel)

/-- The bytes of a void argument: the call of the second method takes the number in front of the
conditional for its argument. -/
def voidCode : Array UInt8 :=
  #[5, 0, 0, 9, 0, 57, 0, 9, 24, 0, 1, 24, 0, 2, 56, 0, 3, 5, 0, 3, 35, 58]

/-- **A void argument** leaves one branch of the conditional with fewer entries than the other, so there
is no depth that both agree on behind it. -/
theorem voidArgument_not_wellFormed : voidTypes.Declared ∧ voidArgument.toExpr.Checked voidTypes ∧
    ∃ a, compile voidTypes .debug (some voidArgument) ⟨[some .bool], some .int32⟩ = .ok a ∧
      ¬a.main.WellFormed a.image := by
  have hsome : (compile voidTypes .debug (some voidArgument)
      ⟨[some .bool], some .int32⟩).toOption.map
        (fun a => (a.main.chunk.code, a.main.chunk.constants[1]?, a.main.chunk.constants[2]?)) =
      some (voidCode, some (.method voidResult), some (.method voidParam)) := by decide +kernel
  obtain ⟨a, ha, heq⟩ := Except.exists_ok_of_map hsome
  obtain ⟨hcode, hV, hW⟩ : a.main.chunk.code = voidCode ∧
      a.main.chunk.constants[1]? = some (.method voidResult) ∧
      a.main.chunk.constants[2]? = some (.method voidParam) := by simpa using heq
  refine ⟨voidTypes_declared, voidArgument_checked, a, ha, fun hwf => ?_⟩
  obtain ⟨D, hD⟩ := hwf.depths
  have hop : ∀ {o op}, (voidCode[o]?).bind Opcode.ofByte? = some op →
      a.main.chunk.opcode? o = some op := fun h => by rw [Chunk.opcode?, hcode, h]
  have hinstr : ∀ {o op vs}, a.main.chunk.Start o → (voidCode[o]?).bind Opcode.ofByte? = some op →
      ({ code := voidCode } : Chunk).operands? o = some vs → a.main.chunk.Instr o op vs := by
    intro o op vs hs ho hvs
    refine ⟨hs, hop ho, ?_⟩
    rw [← hvs]
    exact Chunk.operands?_congr hcode o
  have h₀ : a.main.chunk.Start 0 := .zero
  have h₃ : a.main.chunk.Start 3 := .next h₀ (hop rfl)
  have h₅ : a.main.chunk.Start 5 := .next h₃ (hop rfl)
  have h₈ : a.main.chunk.Start 8 := .next h₅ (hop rfl)
  have h₁₁ : a.main.chunk.Start 11 := .next h₈ (hop rfl)
  have h₁₄ : a.main.chunk.Start 14 := .next h₁₁ (hop rfl)
  have h₁₇ : a.main.chunk.Start 17 := .next h₁₄ (hop rfl)
  have htest : a.main.chunk.Instr 5 .jumpIfFalse [9] := hinstr h₅ rfl rfl
  have hfirst : a.main.chunk.Instr 8 .call [1] := hinstr h₈ rfl rfl
  have hsecond : a.main.chunk.Instr 11 .call [2] := hinstr h₁₁ rfl rfl
  have hjump : a.main.chunk.Instr 14 .jump [3] := hinstr h₁₄ rfl rfl
  have hother : a.main.chunk.Instr 17 .const [3] := hinstr h₁₇ rfl rfl
  have hVe : Effect.of .call [1] a.main.chunk.constants = .ok ⟨0, 0⟩ := by
    simp only [Effect.of, hV]
    rfl
  have hWe : Effect.of .call [2] a.main.chunk.constants = .ok ⟨1, 1⟩ := by
    simp only [Effect.of, hW]
    rfl
  have htest_pop : 1 ≤ D 5 := hD.enough htest rfl
  have htest_next : D 8 = D 5 - 1 := hD.next htest rfl rfl
  have htest_jump : D 17 = D 5 - 1 := hD.jump htest rfl rfl
  have hfirst_next : D 11 = D 8 := hD.next hfirst hVe rfl
  have hsecond_pop : 1 ≤ D 11 := hD.enough hsecond hWe
  have hsecond_next : D 14 = D 11 - 1 + 1 := hD.next hsecond hWe rfl
  have hjump_end : D 20 = D 14 := hD.jump hjump rfl rfl
  have hother_end : D 20 = D 17 + 1 := hD.next hother rfl rfl
  omega

end TreeMachine.Compiler
