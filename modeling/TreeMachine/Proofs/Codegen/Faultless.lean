import TreeMachine.Proofs.Codegen.CaptureScopes

/-!
# Compilation has no faults

The compilation of a checked tree gives an artifact, or it declines the tree (`Compiler.compile_ok_or_declines`). What
is left to show for this are the faults about variables: a closure finds each captured variable as the pass over the
tree decided, the root captures nothing, and nothing is assigned to a copy.

* **`Fits`** says how the variables in scope at a place of the compilation go with those that the pass saw there.
* `scoping_fits` says that the parts of a tree are compiled in such scopes.
-/

open List

namespace TreeMachine

variable {env : Bindings} {c : Expr} {visible : List (Nat × Nat)} {decl k : Nat} {enclosing : Option Bindings}

namespace Expr

def isVoidConstant : Expr → Bool
  | .constant _ none => true
  | _ => false

inductive TypedConstants : Expr → Prop
  | node {e : Expr} : e.isVoidConstant = false → (∀ c ∈ e.children, TypedConstants c) → TypedConstants e

namespace TypedConstants

theorem constant_type {v : Value} {t : Option Ty} (h : (Expr.constant v t).TypedConstants) : ∃ u, t = some u := by
  cases h
  rename_i hconst _
  cases t with
  | none => cases hconst
  | some u => exact ⟨u, rfl⟩

theorem child {e : Expr} (h : e.TypedConstants) (hc : c ∈ e.children) : c.TypedConstants := by
  cases h
  rename_i hchildren
  exact hchildren c hc

theorem of_within (n : Nat) {e : Expr} (h : e.Within (·.isVoidConstant = false) n) : e.TypedConstants := by
  induction n generalizing e with
  | zero => exact h.elim
  | succ n ih => exact .node h.1 fun c hc => ih (h.2 c hc)

end TypedConstants

end Expr

open CapturePass (current inside stops exists_stop passes_stops Visited lambdas_declareAll enterLambda)

namespace Codegen

variable {ctx : Context}

/-! ## Variables in scope -/

def Current (ctx : Context) (n : Nat) : Prop :=
  ctx.captures.number? (ctx.captures.vars.getD n default).decl (ctx.captures.vars.getD n default).var = some n

/-- The variables in scope in lambda `l`, beside those that the pass saw at the same place. Those that closures share
are in cells. A copy in a closure is of a variable from outside, and of the one that the pass saw. -/
structure Fits (ctx : Context) (visible : List (Nat × Nat)) (l : Nat) (env : Bindings) : Prop where
  agrees : ∀ {x n : Nat} {b : Binding}, env.lookup x = some b → b.number = some n →
    b.place.isCell = shared ctx n ∧ Current ctx n
  seen : ∀ {x : Nat} {b : Binding}, env.lookup x = some b → ∃ i, visible.lookup x = some i ∧
    (b.place = .free → (ctx.captures.vars.getD i default).owner ≠ l ∧
      (i ∈ ctx.captures.of l → b.number = some i))

theorem Fits.bind {l : Nat} (h : Fits ctx visible l env)
    {number : Option Nat} (hnumber : ∀ n, number = some n → Current ctx n) (id slot i : Nat) :
    Fits ctx ((id, i) :: visible) l ((id, slotBinding ctx slot number) :: env) := by
  refine ⟨fun {x n b} hb hn => ?_, fun {x b} hb => ?_⟩
  · rw [lookup_cons] at hb
    split at hb
    · cases hb
      refine ⟨?_, hnumber n hn⟩
      obtain rfl : number = some n := hn
      have hshared : shared ctx n = decide (modeOf ctx (some n) = .byReference) := rfl
      rw [slotBinding, hshared]
      by_cases hmode : modeOf ctx (some n) = .byReference
      · rw [if_pos hmode, decide_eq_true hmode]
        rfl
      · rw [if_neg hmode, decide_eq_false hmode]
        rfl
    · exact h.agrees hb hn
  · rw [lookup_cons] at hb ⊢
    split at hb
    · cases hb
      refine ⟨i, rfl, fun hplace => ?_⟩
      simp only [slotBinding] at hplace
      split at hplace <;> cases hplace
    · exact h.seen hb

theorem Fits.binds {l : Nat} {vs : List Var} {env' : Bindings} {p : CapturePass}
    (h : Fits ctx p.visible l env) (hnumber : ∀ v n, ctx.captures.number? decl v = some n → Current ctx n)
    (hbinds : Binds ctx decl vs env env') : Fits ctx (p.declareAll decl vs).visible l env' := by
  induction hbinds generalizing p with
  | nil => exact h
  | @cons v vs slot env env' _ ih =>
    exact ih (p := CapturePass.declare decl p v) (h.bind (hnumber v) v.id slot _)

/-- The captured variables of lambda `l`, which are the only ones in scope at first. All of them were found in the
enclosing scope, so that no two of one identity are among them. -/
theorem fits_captured {l : Nat}
    (henv : ∀ x ∈ env, ∃ (j n : Nat), (ctx.captures.of l)[j]? = some n ∧ x = freeBinding ctx (0 + j) n)
    (henclosed : ∀ n ∈ ctx.captures.of l, Enclosed ctx enclosing n)
    (hfits : ∀ env, enclosing = some env → Fits ctx visible k env)
    (hvisible : ∀ b ∈ visible, (ctx.captures.vars.getD b.2 default).var.id = b.1 ∧
      (ctx.captures.vars.getD b.2 default).owner ≠ l) : Fits ctx visible l env := by
  have hfound : ∀ {x : Nat} {b : Binding}, env.lookup x = some b → ∃ (n : Nat) (outer : Bindings) (b' : Binding),
      b.number = some n ∧ b.place = (if shared ctx n then .freeCell else .free) ∧ Fits ctx visible k outer ∧
      enclosing = some outer ∧ outer.lookup x = some b' ∧ b'.number = some n := by
    intro x b hb
    obtain ⟨j, n, hj, hx⟩ := henv _ (mem_of_lookup hb)
    obtain ⟨outer, b', rfl, hb', hn⟩ := henclosed n (mem_of_getElem? hj)
    obtain ⟨rfl, rfl⟩ := Prod.mk.inj hx
    exact ⟨n, outer, b', rfl, rfl, hfits outer rfl, rfl, hb', hn⟩
  refine ⟨fun {x m b} hb hm => ?_, fun {x b} hb => ?_⟩
  · obtain ⟨n, outer, b', hn, hplace, houter, -, hb', hn'⟩ := hfound hb
    obtain rfl : m = n := Option.some.inj (hm.symm.trans hn)
    refine ⟨?_, (houter.agrees hb' hn').2⟩
    rw [hplace]
    cases shared ctx m <;> rfl
  · obtain ⟨n, outer, b', hn, hplace, houter, rfl, hb', hn'⟩ := hfound hb
    obtain ⟨i, hi, -⟩ := houter.seen hb'
    obtain ⟨hid, howner⟩ := hvisible _ (mem_of_lookup hi)
    refine ⟨i, hi, fun _ => ⟨howner, fun hmem => ?_⟩⟩
    -- the number that the pass saw is found under the same identity
    obtain ⟨outer', b'', heq, hb'', hi'⟩ := henclosed i hmem
    cases heq
    have hid : (ctx.captures.vars.getD i default).var.id = x := hid
    rw [hid, hb'] at hb''
    cases hb''
    rw [hn, ← hn', hi']

/-! ## Scopes of the parts of a tree -/

section

variable {root : Lambda} {p : CapturePass} {e : Expr}
  (hctx : ctx.captures = Captures.analyze ctx.types root ctx.options.inlineCaptures)
include hctx

theorem current_of_number? {n : Nat} {v : Var} (h : ctx.captures.number? decl v = some n) : Current ctx n := by
  rw [hctx] at h
  unfold Current
  rw [hctx]
  exact Captures.number?_self h

theorem owner_ne_of_visible {l : Lambda} (hroot : root.toExpr.Apart [])
    (h : Visited ctx.types root l.toExpr p) : ∀ b ∈ p.visible,
      (ctx.captures.vars.getD b.2 default).var.id = b.1 ∧ (ctx.captures.vars.getD b.2 default).owner ≠ l.id := by
  intro b hb
  rw [hctx]
  obtain ⟨hid, howner, -⟩ := Captures.recorded_of_visible ctx.options.inlineCaptures h hb
  refine ⟨hid, fun heq => ?_⟩
  rw [heq] at howner
  exact (h.apart hroot).not_mem rfl howner

theorem not_free_of_assigned {v : Var} {value : Expr} {b : Binding}
    (h : Visited ctx.types root (.assign (.var v) value) p) (hfits : Fits ctx p.visible p.current env)
    (hb : env.lookup v.id = some b) : b.place ≠ .free := by
  intro hplace
  obtain ⟨i, hi, hfree⟩ := hfits.seen hb
  obtain ⟨howner, hnumber⟩ := hfree hplace
  rw [hctx] at howner hnumber
  obtain ⟨hmem, hmode⟩ := Captures.shared_of_assigned h hi howner
  obtain ⟨hcell, hcurrent⟩ := hfits.agrees hb (hnumber hmem)
  -- the variable would be in a cell
  unfold Current at hcurrent
  rw [hctx] at hcurrent
  rw [hplace, shared, hctx] at hcell
  have hshared : (Captures.analyze ctx.types root ctx.options.inlineCaptures).mode i = .byReference := hmode hcurrent
  rw [Captures.mode] at hshared
  rw [decide_eq_true hshared] at hcell
  cases hcell

end

theorem fits_of_stop {U : Universe} {p q : CapturePass} {e : Expr} (h : (c, q) ∈ stops U e p) :
    Fits ctx q.visible q.current = Fits ctx (inside e p).visible (inside e p).current := by
  have hpass := (passes_stops h).1
  rw [hpass.visible, current, current, hpass.lambdas]

theorem opens_of_fits {l : Lambda} {p : CapturePass}
    (hnumber : ∀ v n, ctx.captures.number? l.id v = some n → Current ctx n)
    (hroot : enclosing = none → ctx.captures.of l.id = [])
    (hfits : ∀ env, enclosing = some env → Fits ctx p.visible k env)
    (hvisible : ∀ b ∈ p.visible, (ctx.captures.vars.getD b.2 default).var.id = b.1 ∧
      (ctx.captures.vars.getD b.2 default).owner ≠ l.id) :
    Opens ctx enclosing l (Fits ctx (p.declareAll l.id l.params).visible l.id) where
  agrees n hn := by
    cases enclosing with
    | none =>
      rw [hroot rfl] at hn
      cases hn
    | some env => exact ⟨env, rfl, fun b hb hbn => ((hfits env rfl).agrees hb hbn).1⟩
  body henv henclosed hbinds := (fits_captured henv henclosed hfits hvisible).binds hnumber hbinds

theorem scoping_fits {root : Lambda} (hctx : ctx.captures = Captures.analyze ctx.types root ctx.options.inlineCaptures)
    (hroot : root.toExpr.Apart []) :
    Scoping ctx fun e P => e.TypedConstants ∧ ∃ p, Visited ctx.types root e p ∧
      P = Fits ctx p.visible p.current where
  constant h := by
    obtain ⟨t, ht⟩ := h.1.constant_type
    cases ht
  assign := by
    rintro v value _ env b ⟨-, p, hp, rfl⟩ hfits hb
    exact not_free_of_assigned hctx hp hfits hb
  part := by
    rintro e c _ ⟨ht, p, hp, rfl⟩ he hc
    have hinside : inside e p = p.next := by
      cases e with
      | init | lambda | block => cases he
      | _ => rfl
    obtain ⟨q, hq⟩ := exists_stop (U := ctx.types) hc p
    exact ⟨ht.child hc, q, .part hp hq, by rw [fits_of_stop hq, hinside]; rfl⟩
  init := by
    rintro t k args vs ms e _ ⟨ht, p, hp, rfl⟩ he
    rcases he with he | he
    · obtain ⟨q, hq⟩ := exists_stop (U := ctx.types) (e := .new t k args) he p.next
      exact ⟨(ht.child mem_cons_self).child he, q, .part (.part hp mem_cons_self) hq,
        by rw [fits_of_stop hq]; rfl⟩
    · obtain ⟨q, hq⟩ := exists_stop (U := ctx.types) (e := .init t k args ms vs) (mem_cons_of_mem _ he) p
      exact ⟨ht.child (mem_cons_of_mem _ he), q, .part hp hq, by rw [fits_of_stop hq]; rfl⟩
  lambda := by
    rintro l _ ⟨ht, p, hp, rfl⟩
    refine ⟨_, ⟨ht.child mem_cons_self, p.enterLambda l.id l.params, .part hp mem_cons_self, rfl⟩,
      fun env hfits => ?_⟩
    have hvisible := owner_ne_of_visible hctx hroot hp
    have hopens : Opens ctx (some env) l (Fits ctx _ _) :=
      opens_of_fits (p := { p.next with lambdas := (l.id, p.next.pos) :: p.next.lambdas }) (k := p.current)
        (fun v n => current_of_number? hctx) nofun (fun env' henv => by cases henv; exact hfits) hvisible
    rw [enterLambda, current, lambdas_declareAll]
    exact hopens
  block := by
    rintro id vars es _ ⟨ht, p, hp, rfl⟩
    refine ⟨Fits ctx (p.next.declareAll id vars).visible p.current, fun e he => ?_,
      fun env env' hfits hbinds => Fits.binds (p := p.next) hfits (fun v n => current_of_number? hctx) hbinds⟩
    obtain ⟨q, hq⟩ := exists_stop (U := ctx.types) (e := .block id vars es) he p
    have hcurrent : (p.next.declareAll id vars).current = p.current := by
      rw [current, lambdas_declareAll]
      rfl
    exact ⟨ht.child he, q, .part hp hq, by rw [fits_of_stop hq, inside, hcurrent]⟩

end Codegen

/-! ## Trees -/

namespace Compiler

variable {U : Universe} {root : Lambda}

theorem declines_root (hU : U.Declared) (hvoid : U.NonVoid) (hroot : root.toExpr.Checked U)
    (hconst : root.toExpr.TypedConstants) (hapart : root.toExpr.Apart []) (options : Options) {shape : Shape}
    (hlen : shape.params.length = root.params.length) :
    let ctx : Codegen.Context :=
      { types := U, captures := Captures.analyze U root options.inlineCaptures, options := options }
    Codegen.Declines (Codegen.function ctx none root shape (Codegen.compile ctx root.body))
      { function := Codegen.newFunction ctx root.rootName } := by
  intro ctx
  have hopens : Codegen.Opens ctx none root (Codegen.Fits ctx _ _) :=
    Codegen.opens_of_fits (k := 0) (p := { ({} : CapturePass).next with lambdas := [(root.id, 1)] })
      (fun v n => Codegen.current_of_number? rfl) (fun _ => Captures.of_root hapart) (fun _ h => by cases h)
      fun b hb => absurd hb not_mem_nil
  refine Codegen.Runs.declines (Codegen.runs_root hU (Codegen.scoping_fits rfl hapart) hroot (hvoid.valued hroot) hlen
    ⟨hconst.child mem_cons_self, _, .body, rfl⟩ fun _ => ?_) trivial
  rw [enterLambda, current, lambdas_declareAll]
  exact hopens

theorem unsupported_of_compile (hU : U.Declared) (hvoid : U.NonVoid) (hroot : root.toExpr.Checked U)
    (hconst : root.toExpr.TypedConstants) (hapart : root.toExpr.Apart []) {options : Options} {shape : Shape}
    {e : CompileError} (he : compile U options (some root) shape = .error e) : e.isUnsupported = true := by
  unfold compile at he
  simp only at he
  split at he
  · cases he
    rfl
  · rename_i hlen
    split at he
    · cases he
      rfl
    · split at he
      · cases he
        rfl
      · split at he
        · cases he
        · rename_i e' s hfun
          cases he
          exact declines_root hU hvoid hroot hconst hapart options (not_not.1 hlen) hfun

/-- **Compilation has no faults**: every checked tree is compiled or declined, whatever it is called with and whatever
limits it runs into, if constants, parameters and members have types and no lambda is inside itself. The text of the
tree has to end, as it is logged where the tree is declined. -/
theorem compile_ok_or_declines (hU : U.Declared) (hvoid : U.NonVoid) (hroot : root.toExpr.Checked U)
    (hconst : root.toExpr.TypedConstants) (hapart : root.toExpr.Apart []) {s : Store}
    (hprints : root.toExpr.prints s = true) (options : Options) (shape : Shape) :
    (∃ a, answer U s options (some root) shape = .ok a) ∨
      ∃ e, answer U s options (some root) shape = .error (.error e) ∧ e.isUnsupported = true := by
  rw [answer_of_prints hprints]
  cases hcompile : compile U options (some root) shape with
  | ok a => exact .inl ⟨a, rfl⟩
  | error e => exact .inr ⟨e, rfl, unsupported_of_compile hU hvoid hroot hconst hapart hcompile⟩

/-- A function that calls a closure twice which adds to its parameter. The closure is one node at two places. -/
def addTwice : Lambda :=
  let n : Var := ⟨1, "n", .int32⟩
  let one : Expr := .constant ⟨some .int32, .int 1⟩ (some .int32)
  let add : Expr := .lambda 3 "" [] (.assign (.var n) (.binary .add (.var n) one none .int32)) (some .int32)
    (.declared 1)
  { id := 4
    name := "addTwice"
    params := [n]
    body := .block 5 [] [.apply add [] (some .int32), .apply add [] (some .int32)]
    result := some .int32
    type := .declared 0 }

/-- The function is compiled or declined for calls with a wider number, which has to be converted before closures share
it. -/
theorem addTwice_ok_or_declines :
    (∃ a, answer counterTypes {} {} (some addTwice) ⟨[some .int64], none⟩ = .ok a) ∨
      ∃ e, answer counterTypes {} {} (some addTwice) ⟨[some .int64], none⟩ = .error (.error e) ∧
        e.isUnsupported = true := by
  have hconst : addTwice.toExpr.TypedConstants := .of_within 7 (by decide +kernel)
  have hapart : addTwice.toExpr.Apart [] := by
    have hinner : ∀ {e : Expr} {around : List Nat}, e.lambda? = none → (∀ c ∈ e.children, c.Apart around) →
        e.Apart around := fun he hc => .node (by rw [he]; nofun) (by rw [he]; exact hc)
    have hvar : ∀ {e : Expr} {around : List Nat}, e.lambda? = none → e.children = [] → e.Apart around := fun he hc =>
      hinner he (by rw [hc]; exact fun _ h => nomatch h)
    refine .node (by decide) (forall_mem_singleton.2 (hinner rfl fun c hc => ?_))
    obtain rfl := (mem_cons.1 hc).elim id fun hc => mem_singleton.1 hc
    refine hinner rfl (forall_mem_singleton.2 (.node (by decide) (forall_mem_singleton.2 ?_)))
    refine hinner rfl (forall_mem_cons.2 ⟨hvar rfl rfl, forall_mem_singleton.2 (hinner rfl ?_)⟩)
    exact forall_mem_cons.2 ⟨hvar rfl rfl, forall_mem_singleton.2 (hvar rfl rfl)⟩
  exact compile_ok_or_declines counterTypes_declared (by decide) (Expr.checked_of_within 7 (by decide +kernel)) hconst
    hapart (by decide +kernel) {} ⟨[some .int64], none⟩

/-- An array whose only item is the array. -/
def knot : Store := { arrays := #[⟨.object, #[⟨some (.array .object), .array 0⟩]⟩] }

/-- A function without parameters that returns the array. -/
def knotted : Lambda where
  id := 0
  name := "knotted"
  params := []
  body := .constant ⟨some (.array .object), .array 0⟩ (some (.array .object))
  result := some (.array .object)
  type := .declared 0

/-- For calls with a parameter the function is declined, but its text has no end and nothing comes back. Without a tree
there is no text, and logging it crashes. -/
theorem knotted_unanswered :
    answer {} knot {} (some knotted) ⟨[some .int32], none⟩ = .error .endless ∧
      answer {} knot {} none ⟨[some .int32], none⟩ = .error .crashed := by
  have hendless : knotted.toExpr.prints knot = false := by decide +kernel
  refine ⟨?_, rfl⟩
  show Except.error (if knotted.toExpr.prints knot then _ else _) = _
  rw [hendless]
  rfl

end Compiler

end TreeMachine
