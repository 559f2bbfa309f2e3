import TreeMachine.Codegen.Compile
import TreeMachine.Tree.Fingerprint

/-!
# The cache of compilations

A tree and shape is compiled once; trees with the same fingerprint share the outcome. Artifacts and
declined trees are kept, broken compilations are not.
-/

namespace TreeMachine

/-- A kept outcome. Artifacts are numbered in the order they were made. -/
abbrev CacheEntry := Except CompileFailure (Nat × Artifact)

structure Cache where
  options : Options := {}
  entries : List (Fingerprint × CacheEntry) := []
  hits : Nat := 0
  misses : Nat := 0
  compiles : Nat := 0
  made : Nat := 0
deriving Inhabited

namespace Cache

def isKept : CacheEntry → Bool
  | .ok _ => true
  | .error e => e.isUnsupported

def compile (c : Cache) (U : Universe) (s : Store) (root : Lambda) (shape : Shape) : CacheEntry × Cache :=
  let key := Fingerprint.ofTree s root.toExpr shape
  match c.entries.lookup key with
  | some e => (e, { c with hits := c.hits + 1 })
  | none =>
    let entry : CacheEntry :=
      match Compiler.answer U s c.options (some root) shape with
      | .ok a => .ok (c.made, a)
      | .error e => .error e
    (entry,
      { c with
        misses := c.misses + 1
        compiles := c.compiles + 1
        made := c.made + 1
        entries := if isKept entry then (key, entry) :: c.entries else c.entries })

def size (c : Cache) : Nat := c.entries.length

def purge (c : Cache) : Cache :=
  { c with entries := [], hits := 0, misses := 0, compiles := 0 }

end Cache

end TreeMachine
