import TreeMachine.Scenario.Basic

/-!
# The catalogue of scenarios

Scenarios by what they exercise: structs, conversions, objects and arrays, operators, closures, call
shapes, and trees that only the walker runs.
-/

namespace TreeMachine.Scenario

open Build (assign binary block)

instance : Coe Var Expr := ⟨Expr.var⟩

def filledStructA : Build Expr := do
  init structA [("N", ← int32 43), ("M", ← int32 34), ("Sf", ← text "sf"), ("Sp", ← text "sp")]

def filledMember (name : String) (want : Value) : Build ScenarioCase := do
  run [] (← member (← filledStructA) name) want []

def structs : List Scenario :=
  [ .of "struct field read" do
      let a ← param "a" structA
      run [a] (← member a "N") (.ofInt32 42) [← structAValue 42 0 "" ""],
    .of "struct ToString override" do
      let a ← param "a" structA
      run [a] (← send a "ToString" []) (.ofString "42") [← structAValue 42 0 "" ""],
    .of "struct Equals boxed default" do
      let a ← param "a" structA
      let other ← convert (← Build.default (some structA)) .object
      run [a] (← send a "Equals" [other]) (.ofBool false) [← structAValue 42 0 "" ""],
    .of "default constructed struct" do run [] (← member (← new structA []) "N") (.ofInt32 0) [],
    .of "member init field" (filledMember "N" (.ofInt32 43)),
    .of "member init auto property" (filledMember "M" (.ofInt32 34)),
    .of "member init string field" (filledMember "Sf" (.ofString "sf")),
    .of "member init string auto property" (filledMember "Sp" (.ofString "sp")),
    .of "member init value" do run [] (← filledStructA) (← structAValue 43 34 "sf" "sp") [],
    .of "mutating call on host capture" do
      let U ← Build.types
      let v ← ssValue ""
      let cell ← Build.onStore (Store.newCell U (some ss) v)
      let a ← param "a" .string
      let body ← send (← Build.hostVar "s" (some cell)) "SetValue" [a]
      let l ← Build.lambdaOf none (some body) [a]
      return { caseOf l .nil [.ofString "a"] with expectation := .hostText cell "a" } ]

def expectBox (t : Ty) (want : Value) (body : Expr) : Build ScenarioCase := do
  return { ← run [] body want [] with expectation := .boxed t want }

def boxes : List Scenario :=
  [ .of "int to interface" do expectBox .int32 (.ofInt32 12) (← convert (← int32 12) .comparable),
    .of "enum to interface" do
      let v := Value.integral (← Build.types) dateTimeKind 2
      expectBox dateTimeKind v (← convert (← Build.const v) .comparable),
    .of "struct to interface" do
      let body ← convert (← init ss [("Value", ← text "a")]) .disposable
      expectBox ss (← ssValue "a") body,
    .of "dispose through interface copy" do
      let s ← param "s" ss
      let d ← param "d" .disposable
      let body ← block [s, d]
        [← assignMember s "Value" (← text "live"), ← assign d (← convert s .disposable),
          ← send d "Dispose" [], ← member s "Value"]
      run [] body (.ofString "live") [],
    .of "unbox after interface call" do
      let d ← param "d" .disposable
      let body ← block [d]
        [← assign d (← convert (← new ss []) .disposable), ← send d "Dispose" [],
          ← member (← convert d ss) "Value"]
      run [] body (.ofString "disposed") [] ]

def copies : List Scenario :=
  [ .of "copy on assignment" do
      let p ← param "p" point
      let q ← param "q" point
      let body ← block [p, q]
        [← assignMember p "X" (← int32 1), ← assign q p, ← assignMember q "X" (← int32 2),
          ← member p "X"]
      run [] body (.ofInt32 1) [],
    .of "struct argument is copied" do
      let p ← param "p" point
      let v ← param "v" point
      let f ← param "f" (← Build.delegate [point] (some .int32))
      let inner ← closure
        (← block [] [← assignMember v "X" (← int32 9), ← member v "X"]) [v]
      let body ← block [f] [← assign f inner, ← apply f [p], ← member p "X"]
      run [p] body (.ofInt32 1) [← pointValue 1 2],
    .of "caller argument untouched" do
      let p ← param "p" point
      let arg ← pointValue 1 2
      let body ← block [] [← assignMember p "X" (← int32 7), ← member p "X"]
      return { ← run [p] body (.ofInt32 7) [arg] with expectation := .untouched arg 1 7 },
    .of "in-place method call" do
      let p ← param "p" point
      let body ← block [] [← send p "Offset" [← int32 5], ← member p "X"]
      run [p] body (.ofInt32 6) [← pointValue 1 2],
    .of "method call on a copy" do
      let p ← param "p" point
      let q ← param "q" point
      let body ← block [q]
        [← assign q p, ← send q "Offset" [← int32 5], ← member p "X"]
      run [p] body (.ofInt32 1) [← pointValue 1 2] ]

def arrays : List Scenario :=
  [ .of "array element in place" do
      let arr ← param "arr" (.array point)
      let body ← block [arr]
        [← assign arr (← Build.newArray (some point) (← int32 2)),
          ← assignMember (← Build.index arr (← int32 0)) "X" (← int32 4),
          ← member (← Build.index arr (← int32 0)) "X"]
      run [] body (.ofInt32 4) [],
    .of "array init and length" do
      let n ← param "n" .int32
      let arr ← param "arr" (.array .int32)
      let items : List Expr := [.var n, ← binary .add n (← int32 1), ← int32 7]
      let body ← block [arr]
        [← assign arr (← Build.arrayOf (some .int32) (items.map some)),
          ← binary .add (← Build.index arr (← int32 1)) (← Build.length arr)]
      run [n] body (.ofInt32 8) [.ofInt32 4] ]

def objects : List Scenario :=
  [ .of "virtual dispatch" do
      let a ← param "a" animal
      run [a] (← send a "Speak" []) (.ofString "rex: woof") [← dogValue "rex"],
    .of "constructor and virtual call" do
      run [] (← send (← new dog [← text "rex"]) "Speak" []) (.ofString "rex: woof") [],
    .of "reference equality" do
      let a ← param "a" animal
      let b ← param "b" animal
      let body ← block [a, b]
        [← assign a (← new dog [← text "r"]), ← assign b a,
          ← binary .equal a b]
      run [] body (.ofBool true) [] ]

def operators : List Scenario :=
  [ .of "conditional" do
      let n ← param "n" .int32
      let body ← Build.cond (← binary .less n (← int32 0)) (← Build.unary .negate n) n
      run [n] body (.ofInt32 5) [.ofInt32 (-5)],
    .of "short circuit" do
      let n ← param "n" .int32
      let quotient ← binary .div (← int32 10) n
      let body ← binary .andAlso (← binary .notEqual n (← int32 0))
        (← binary .greater quotient (← int32 2))
      run [n] body (.ofBool false) [.ofInt32 0],
    .of "modulo and negation" do
      let n ← param "n" .int32
      let body ← Build.unary .negate (← binary .mod n (← int32 4))
      run [n] body (.ofInt32 (-3)) [.ofInt32 7],
    .of "widening" do
      let n ← param "n" .int32
      let body ← binary .mul (← convert n .int64) (← Build.const (.ofInt64 3))
      run [n] body (.ofInt64 21) [.ofInt32 7],
    .of "narrowing" do
      let d ← param "d" .float64
      run [d] (← convert d .int32) (.ofInt32 3) [.ofFloat 0x400d99999999999a],
    .of "enum to underlying" do
      let v := Value.integral (← Build.types) dateTimeKind 2
      run [] (← convert (← Build.const v) .int32) (.ofInt32 2) [],
    .of "string concat length" do
      let s ← param "s" .string
      let body ← member (← binary .add s (← text "!")) "Length"
      run [s] body (.ofInt32 4) [.ofString "abc"],
    .of "string equality" do
      let s ← param "s" .string
      run [s] (← binary .equal s (← text "x")) (.ofBool true) [.ofString "x"],
    .of "default of struct" do run [] (← Build.default (some point)) (← pointValue 0 0) [] ]

def supplier : Build Ty := Build.delegate [] (some .int32)

def closures : List Scenario :=
  [ .of "closure captures by value" do
      let x ← param "x" .int32
      let f ← param "f" (← supplier)
      let body ← block [x, f]
        [← assign x (← int32 5),
          ← assign f (← closure (← binary .add x (← int32 1)) []), ← apply f []]
      run [] body (.ofInt32 6) [],
    .of "closure sees later write" do
      let x ← param "x" .int32
      let f ← param "f" (← supplier)
      let body ← block [x, f]
        [← assign x (← int32 1), ← assign f (← closure x []),
          ← assign x (← int32 2), ← apply f []]
      run [] body (.ofInt32 2) [],
    .of "closure writes outer variable" do
      let x ← param "x" .int32
      let g ← param "g" (← supplier)
      let write ← assign x (← binary .add x (← int32 10))
      let body ← block [x, g]
        [← assign x (← int32 1), ← assign g (← closure write []), ← apply g [],
          Expr.var x]
      run [] body (.ofInt32 11) [],
    .of "recursive delegate" do
      let n ← param "n" .int32
      let f ← param "fact" (← Build.delegate [.int32] (some .int32))
      let next ← apply f [← binary .sub n (← int32 1)]
      let fact ← closure (← Build.cond (← binary .lessEqual n (← int32 1)) (← int32 1)
        (← binary .mul n next)) [n]
      let body ← block [f] [← assign f fact, ← apply f [← int32 5]]
      run [] body (.ofInt32 120) [],
    .of "nested closures" do
      let a ← param "a" .int32
      let b ← param "b" .int32
      let c ← param "c" .int32
      let inner ← closure (← binary .add (← binary .add a b) c) [c]
      let outer ← closure inner [b]
      run [a] (← apply (← apply outer [← int32 2]) [← int32 3]) (.ofInt32 6) [.ofInt32 1],
    .of "captured struct read" do
      let p ← param "p" point
      let f ← param "f" (← supplier)
      let body ← block [f]
        [← assign f (← closure (← member p "X") []), ← apply f []]
      run [p] body (.ofInt32 1) [← pointValue 1 2],
    .of "captured struct mutated in closure" do
      let p ← param "p" point
      let g ← param "g" (← Build.delegate [] none)
      let write ← Build.lambdaOf none (some (← assignMember p "X" (← int32 9))) []
      let body ← block [g]
        [← assign g write.toExpr, ← apply g [], ← member p "X"]
      run [p] body (.ofInt32 9) [← pointValue 1 2] ]

def shapes : List Scenario :=
  [ .of "shape boxes argument" do
      let o ← param "o" .object
      let c ← run [o] (← send o "ToString" []) (.ofString "12") [.ofInt32 12]
      return { c with shape := { c.shape with params := [some .int32] } },
    .of "shape discards result" do
      let n ← param "n" .int32
      let c ← run [n] (← binary .add n (← int32 1)) .nil [.ofInt32 1]
      return { c with shape := { c.shape with result := none } } ]

def moneyMethod (name : String) (arity : Nat) : Build Method := do
  Build.need ((← Build.types).method? moneyOps name arity)

def walkedOnly : List Scenario :=
  [ { name := "user-defined operator"
      declined := true
      make := do
        let a ← param "a" money
        let b ← param "b" money
        let body ← Build.binaryWith .add (some a) (some b) (← moneyMethod "Add" 2)
        run [a, b] body (← moneyValue 5) [← moneyValue 2, ← moneyValue 3] },
    { name := "user-defined conversion"
      declined := true
      make := do
        let c ← param "c" .int64
        let body ← Build.convertWith (some c) (some money) (← moneyMethod "FromCents" 1)
        run [c] body (← moneyValue 250) [.ofInt64 250] },
    { name := "struct equality"
      declined := true
      make := do
        let a ← param "a" point
        let b ← param "b" point
        run [a, b] (← binary .equal a b) (.ofBool true) [← pointValue 1 2, ← pointValue 1 2] } ]

def all : List Scenario :=
  structs ++ boxes ++ copies ++ arrays ++ objects ++ operators ++ closures ++ shapes ++ walkedOnly

def find? (name : String) : Option Scenario := all.find? (·.name = name)

end TreeMachine.Scenario
