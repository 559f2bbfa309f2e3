import TreeMachine.Proofs.Codegen.Captures
import TreeMachine.Proofs.Codegen.ConversionCode
import TreeMachine.Proofs.Codegen.Plans
import TreeMachine.Proofs.Store.Copies
import TreeMachine.Proofs.Types.Assignability
import TreeMachine.Walk.Convert

/-!
# Routes of conversions

A value is converted by the code of a plan where the machine runs, and by `Walk.convert` where a tree is evaluated.
Which of them does what depends on the route from one type to the other. What both do to a number is the same; the walk
boxes a copy of a struct, and the machine boxes a struct that nothing else holds as it is. The code of a plan is a
stretch of instructions that acts on the top of the stack (`Plan.stretch_of_make`).
Two fields can come to hold one struct (`Compiler.fields_share`).
-/

namespace TreeMachine

open Universe Codegen

/-! ## Numbers -/

theorem Machine.convert_eq_toPrimitive (U : Universe) (v : Value) (q : Option Primitive) :
    Machine.convert U ((q.map Primitive.number).getD 0) v = Walk.toPrimitive U v q := by
  unfold Machine.convert Walk.toPrimitive Machine.toInteger
  cases q with
  | none => cases v.datum <;> rfl
  | some p => cases p <;> cases v.datum <;> rfl

def Value.Canonical (U : Universe) (t : Option Ty) (v : Value) : Prop :=
  ∀ n, v.datum = .int n → wrapTo (t.bind U.primitive?) n = n

namespace Walk

variable {U : Universe} {v : Value} {a b : Ty} {explicit : Bool}

/-! ## What the walk does on each route -/

theorem convertBetween_number (hn : Plan.Numbers U a b) (ha : U.isEnum a = false) (hb : U.isEnum b = false)
    (h : explicit = true ∨ U.isWidening a b = true) :
    convertBetween U v a b explicit = pure (toPrimitive U v (U.primitive? b)) := by
  simp [convertBetween, convertScalar, hn.source, hn.target, hn.source_ne, hn.target_ne, ha, hb, h]

theorem convertBetween_box (h : U.boxesTo a b = true) : convertBetween U v a b explicit = Exec.box v := by
  have ha := isValue_of_boxesTo h
  have hb := isScalar_of_isValue (target_of_boxesTo h)
  simp [convertBetween, ha, hb, h]

theorem convertBetween_unbox (h : U.boxesTo b a = true) : convertBetween U v a b true = unbox v b := by
  have hb := isValue_of_boxesTo h
  have ha := target_of_boxesTo h
  simp [convertBetween, isScalar_of_isValue ha, ha, hb, h]

theorem convertBetween_upcast (ha : U.isValue a = false) (hb : U.isValue b = false)
    (h : U.assignable a b = true) : convertBetween U v a b explicit = pure v := by
  simp [convertBetween, isScalar_of_isValue ha, ha, hb, h]

theorem convertBetween_cast (ha : U.isValue a = false) (hb : U.isValue b = false)
    (hup : U.assignable a b = false) (h : U.convertsExplicitly a b = true) :
    convertBetween U v a b true = (do Exec.checkReference U v b; return v) := by
  simp [convertBetween, isScalar_of_isValue ha, ha, hb, hup, h]

end Walk

/-! ## What the steps do -/

namespace ConversionStep

variable {U : Universe} {v : Value} {a b : Ty} {copies : Bool}

theorem actAll_singleton (p : ConversionStep) : actAll U copies [p] v = p.act U copies v := bind_pure _

theorem actAll_numericSteps (hne : a ≠ b) :
    actAll U copies (Plan.numericSteps U a b) v = pure (Walk.toPrimitive U v (U.primitive? b)) := by
  have hconvert : Machine.convert U (number U b) v = Walk.toPrimitive U v (U.primitive? b) :=
    Machine.convert_eq_toPrimitive U v _
  rw [← hconvert]
  unfold Plan.numericSteps
  rw [if_neg hne]
  split <;> exact actAll_singleton _

end ConversionStep

/-! ## Plans -/

theorem Plan.Route.box_not_mem_tail {U : Universe} {a b : Ty} {explicit : Bool} {steps : List ConversionStep}
    (h : Route U a b explicit steps) (t : Ty) : .box t ∉ steps.tail := by
  have hnumeric : ∀ a b, ConversionStep.box t ∉ numericSteps U a b := by
    intro a b
    unfold numericSteps
    split
    · exact List.not_mem_nil
    · split <;> simp
  cases h with
  | number => exact fun ht => hnumeric a b (List.mem_of_mem_tail ht)
  | enum =>
    intro ht
    have hmem := List.mem_of_mem_tail ht
    simp only [List.mem_append] at hmem
    rcases hmem with (h | h) | h
    · split at h <;> simp at h
    · exact hnumeric _ _ h
    · split at h <;> simp at h
  | box | unbox | upcast | cast => simp

/-- A frame is about to run through the code that was emitted from `σ` to `σ'`, with `v` on top of its stack. -/
structure Machine.Approaches (σ σ' : CodegenState) (f : Frame) (rest : Array Value) (v : Value) : Prop where
  holds : f.closure.function.chunk.Holds σ σ'
  ip : f.ip = offset σ
  stack : f.stack = rest.push v
  depth : rest.size + 1 = (entries σ).length

namespace Plan

variable {U : Universe} {a b : Option Ty} {explicit : Bool} {p : Plan} {cg : Codegen.Context}
  {ctx : Machine.Context} {kind : Kind} {σ σ' : CodegenState}

theorem make_eq_ok (h : make U a b explicit = .ok p) : a = b ∧ p = ⟨a, a, []⟩ ∨
      ∃ x y, a = some x ∧ b = some y ∧ x ≠ y ∧ p.source = a ∧ p.target = b ∧ Route U x y explicit p.steps := by
  unfold make at h
  split at h
  · rename_i heq
    subst heq
    cases h
    exact .inl ⟨rfl, rfl⟩
  rename_i hne
  split at h
  · rename_i x y
    obtain ⟨steps, hsteps, hp⟩ := Except.bind_eq_ok.1 h
    cases hp
    exact .inr ⟨x, y, rfl, rfl, fun hxy => hne (congrArg some hxy), rfl, rfl, .of_steps? hsteps⟩
  · cases h

theorem stretch_of_make {base : List StackEntry} {e : StackEntry} (hmake : make U a b explicit = .ok p)
    (hctx : ctx.host.types = cg.types) (hb : entries σ = base ++ [e])
    (hcode : convert cg kind p σ = .ok () σ') : ∃ e', Codegen.Stretch ctx base e'
      (ConversionStep.actAll cg.types (copies cg.types e) p.steps) σ σ' := by
  have hcases := make_eq_ok hmake
  have hbox : ∀ t, .box t ∉ p.steps.tail := by
    rcases hcases with ⟨-, rfl⟩ | ⟨x, y, -, -, -, -, -, hroute⟩
    · exact fun t => List.not_mem_nil
    · exact hroute.box_not_mem_tail
  have hid : p.source = p.target → p.steps = [] := by
    rcases hcases with ⟨-, rfl⟩ | ⟨x, y, rfl, rfl, hne, hs, ht, -⟩
    · exact fun _ => rfl
    · rw [hs, ht]
      exact fun h => absurd (Option.some.inj h) hne
  exact stretch_convert hctx hbox hid hb hcode

def counterType : Universe := (({} : Universe).delegate [] (some .int32)).2

/-- **A delegate that holds no type** is an object, but a cast to a delegate type neither gives it nor finds it to be
of another type. -/
theorem untyped_delegate_corrupts :
    let v : Value := ⟨none, .delegate 0⟩
    let s : Store := { delegates := #[.host "h" none] }
    counterType.Declared ∧ s.isOf counterType v .object = some true ∧
      make counterType (some .object) (some (.declared 0)) true =
        .ok ⟨some .object, some (.declared 0), [.cast (.declared 0)]⟩ ∧
      Walk.convert counterType v (some .object) (some (.declared 0)) true s = .error (.panic .corrupt) s := by
  have hmake : make counterType (some .object) (some (.declared 0)) true =
      .ok ⟨some .object, some (.declared 0), [.cast (.declared 0)]⟩ := by decide +kernel
  exact ⟨.delegate _ _ .empty, rfl, hmake, rfl⟩

end Plan

/-! ## A class below `null` -/

namespace Compiler

/-- A struct with a number, a class below `null` that holds the struct, a class that holds anything at the same
place, and the type of a function that gives a number. -/
def belowNull : Universe :=
  ((Universe.declareAll {} [
    ⟨"S", .struct, [.field "n" (some .int32)]⟩,
    ⟨"N", .classType (some .null), [.field "s" (some (.declared 0))]⟩,
    ⟨"C", .classType none, [.field "o" (some .object)]⟩]).delegate [] (some .int32)).2

/-- A function that makes two instances of `N`, sees both as instances of `C`, and assigns what the first one holds
to the second. It then writes the number of the first struct and reads that of the second. -/
def sharing : Lambda :=
  let a : Var := ⟨1, "a", .declared 1⟩
  let b : Var := ⟨2, "b", .declared 1⟩
  let seen (v : Var) : Expr := .convert (.convert (.var v) none (some .null)) none (some (.declared 2))
  let content (v : Var) : Expr := .member (seen v) (.field ⟨"o", .object, .declared 2, 0⟩)
  let number (v : Var) : Expr :=
    .member (.member (.var v) (.field ⟨"s", .declared 0, .declared 1, 0⟩)) (.field ⟨"n", .int32, .declared 0, 0⟩)
  { id := 3
    name := "sharing"
    params := []
    body := .block 4 [a, b] [
      .assign (.var a) (.new (.declared 1) none []),
      .assign (.var b) (.new (.declared 1) none []),
      .assign (content b) (content a),
      .assign (number a) (.constant (.ofInt32 5) (some .int32)),
      number b]
    result := some .int32
    type := .declared 3 }

/-- What a call returns, and the fields of the instances after it. -/
def fieldsAfter : EStateM.Result Abort Store Value → Option (Value × Array (Array Value))
  | .ok v s => some (v, s.objects.map (·.fields))
  | .error _ _ => none

/-- **Two fields that hold one struct**: both instances end up with the storage of one struct in their field of a
struct type, so that a write to the one is a write to the other. -/
theorem fields_share : belowNull.Declared ∧ sharing.toExpr.Checked belowNull ∧ ∃ a s loc,
    compile belowNull {} (some sharing) ⟨[], some .int32⟩ = .ok a ∧
    a.call { types := belowNull } (callDelegate { types := belowNull } reentry) [] {} = .ok (.ofInt32 5) s ∧
    s.objects.map (·.fields) = #[#[⟨some (.declared 0), .aggregate loc⟩], #[⟨some (.declared 0), .aggregate loc⟩]] := by
  have hrun : (compile belowNull {} (some sharing) ⟨[], some .int32⟩).toOption.map (fun a =>
      fieldsAfter (a.call { types := belowNull } (callDelegate { types := belowNull } reentry) [] {})) =
        some (some (.ofInt32 5, #[#[⟨some (.declared 0), .aggregate 0⟩], #[⟨some (.declared 0), .aggregate 0⟩]])) := by
    decide +kernel
  obtain ⟨a, ha, hanswer⟩ := Except.exists_ok_of_map hrun
  cases hcall : a.call { types := belowNull } (callDelegate { types := belowNull } reentry) [] {} with
  | ok v s =>
    rw [hcall] at hanswer
    simp only [fieldsAfter, Option.some.injEq, Prod.mk.injEq] at hanswer
    obtain ⟨rfl, hfields⟩ := hanswer
    exact ⟨.delegate _ _ (Universe.Declared.empty.declareAll _), Expr.checked_of_within 8 (by decide +kernel), a, s, 0,
      ha, hcall, hfields⟩
  | error e s =>
    rw [hcall] at hanswer
    cases hanswer

end Compiler

end TreeMachine
