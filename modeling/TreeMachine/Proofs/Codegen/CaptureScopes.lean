import TreeMachine.Proofs.Codegen.Captures

/-!
# Lambdas around a place

What the pass over a tree knows at a place: the lambdas around it, and the variables in scope there, each of which
belongs to one of these lambdas. No lambda is inside itself, so the owner of a variable tells whether it comes from
outside the innermost lambda. If it does, the lambda captures it where it is mentioned, and all closures share it
where it is assigned to (`Captures.shared_of_assigned`). There is nothing outside the root, which
captures nothing (`Captures.of_root`).
-/

open List Option

namespace TreeMachine

open Codegen

namespace Expr

def lambda? : Expr → Option Nat
  | .lambda id _ _ _ _ _ => some id
  | _ => none

/-- No lambda of the tree has the identity of one around it: no node is a part of itself. -/
inductive Apart : List Nat → Expr → Prop
  | node {around : List Nat} {e : Expr} : (∀ id, e.lambda? = some id → id ∉ around) →
    (∀ c ∈ e.children, Apart (e.lambda?.toList ++ around) c) → Apart around e

namespace Apart

variable {around : List Nat} {e c : Expr}

theorem not_mem (h : e.Apart around) {id : Nat} (he : e.lambda? = some id) : id ∉ around := by
  cases h
  rename_i hid _
  exact hid id he

theorem child (h : e.Apart around) (hc : c ∈ e.children) : c.Apart (e.lambda?.toList ++ around) := by
  cases h
  rename_i hchildren
  exact hchildren c hc

end Apart

end Expr

/-! ## Free variables -/

namespace Expr

def declares : Expr → List Var
  | .lambda _ _ params _ _ _ => params
  | .block _ vars _ => vars
  | _ => []

mutual

/-- The identities of the variables that are mentioned in an expression and not declared around the mention there, in
the order of evaluation. -/
def free : Expr → List Nat
  | .constant .. | .hostVar .. | .default .. | .absent => []
  | .var v => [v.id]
  | .member o _ | .convert o _ _ | .unary _ o | .newArray _ o | .length o => free o
  | .call o _ args | .apply o args _ => free o ++ freeAll args
  | .callStatic _ args | .new _ _ args | .arrayOf _ args => freeAll args
  | .init _ _ args _ values => freeAll args ++ freeAll values
  | .lambda _ _ params body _ _ => (free body).filter (· ∉ params.map (·.id))
  | .cond c a b => free c ++ (free a ++ free b)
  | .binary _ l r _ _ | .index l r | .assign l r => free l ++ free r
  | .block _ vars es => (freeAll es).filter (· ∉ vars.map (·.id))

def freeAll : List Expr → List Nat
  | [] => []
  | e :: es => free e ++ freeAll es

end

theorem freeAll_eq (es : List Expr) : freeAll es = es.flatMap free := by
  induction es with
  | nil => rfl
  | cons e es ih => rw [freeAll, ih, flatMap_cons]

theorem free_eq {e : Expr} (h : ∀ v, e ≠ .var v) :
    e.free = (e.children.flatMap free).filter (· ∉ e.declares.map (·.id)) := by
  cases e with
  | var v => exact absurd rfl (h v)
  | _ => simp [free, children, declares, freeAll_eq]

end Expr

namespace CapturePass

variable {U : Universe} {p q : CapturePass} {e c : Expr} {root : Lambda}

def around (p : CapturePass) : List Nat := p.lambdas.map (·.1)

theorem current_mem (h : p.lambdas ≠ []) : p.current ∈ p.around := by
  unfold current around
  cases hl : p.lambdas with
  | nil => exact absurd hl h
  | cons l ls => exact mem_cons_self

/-- The current lambda is between the owner of a variable and its mention, unless it is the owner. -/
theorem exists_between (h : p.lambdas ≠ []) {owner : Nat} (howner : owner ≠ p.current) :
    ∃ l ∈ p.lambdas.takeWhile (·.1 != owner), l.1 = p.current := by
  obtain ⟨l, ls, hls⟩ := exists_cons_of_ne_nil h
  rw [current, hls] at howner ⊢
  have hl : (l.1 != owner) = true := by simpa using Ne.symm howner
  exact ⟨l, by rw [takeWhile_cons, if_pos hl]; exact mem_cons_self, rfl⟩

theorem around_inside (e : Expr) (p : CapturePass) : (inside e p).around = e.lambda?.toList ++ p.around := by
  unfold around
  cases e with
  | lambda id name params body =>
    rw [inside, enterLambda, lambdas_declareAll]
    rfl
  | block id vars es =>
    rw [inside, lambdas_declareAll]
    rfl
  | _ => rfl

/-! ## Parts -/

theorem mem_of_stopsAll {es : List Expr} (h : (c, q) ∈ stopsAll U es p) : c ∈ es := by
  induction es generalizing p with
  | nil => cases h
  | cons e es ih =>
    rcases mem_cons.1 h with h | h
    · cases h
      exact mem_cons_self
    · exact mem_cons_of_mem _ (ih h)

theorem exists_stopsAll {es : List Expr} (h : c ∈ es) (p : CapturePass) : ∃ q, (c, q) ∈ stopsAll U es p := by
  induction es generalizing p with
  | nil => cases h
  | cons e es ih =>
    rcases mem_cons.1 h with rfl | h
    · exact ⟨p, mem_cons_self⟩
    · obtain ⟨q, hq⟩ := ih h (visit U e p)
      exact ⟨q, mem_cons_of_mem _ hq⟩

theorem exists_stop (h : c ∈ e.children) (p : CapturePass) : ∃ q, (c, q) ∈ stops U e p := exists_stopsAll h _

theorem Visited.apart (hroot : root.toExpr.Apart []) (h : Visited U root e p) : e.Apart p.around := by
  induction h with
  | body =>
    have hbody : root.body.Apart [root.id] := hroot.child mem_cons_self
    rw [around, enterLambda, lambdas_declareAll]
    exact hbody
  | @part e c p q _ hstop ih =>
    have haround : q.around = e.lambda?.toList ++ p.around := by
      rw [← around_inside, around, around, (passes_stops hstop).1.lambdas]
    rw [haround]
    exact ih.child (mem_of_stopsAll hstop)

/-! ## Owners -/

/-- The variables in scope belong to lambdas around the place, of which there is one. -/
structure Owned (p : CapturePass) : Prop where
  ok : p.Ok
  lambdas : p.lambdas ≠ []
  owner : ∀ {b : Nat × Nat} {x : Variable}, b ∈ p.visible → p.out.vars[b.2]? = some x → x.owner ∈ p.around

namespace Owned

theorem passes (h : p.Owned) (hq : Passes p q) : q.Owned where
  ok := hq.ok h.ok
  lambdas := by rw [hq.lambdas]; exact h.lambdas
  owner := by
    intro b y hb hy
    rw [hq.visible] at hb
    obtain ⟨x, hx, -⟩ := h.ok.visible hb
    obtain ⟨y', hy', hxy⟩ := (hq.grows h.ok).vars hx
    obtain rfl : y' = y := some.inj (hy'.symm.trans hy)
    rw [hxy.owner, around, hq.lambdas]
    exact h.owner hb hx

theorem declareAll (h : p.Owned) (decl : Nat) (vs : List Var) : (p.declareAll decl vs).Owned := by
  induction vs generalizing p with
  | nil => exact h
  | cons v vs ih =>
    refine ih ⟨(leads_declare decl p v).ok h.ok, h.lambdas, fun {b x} hb hx => ?_⟩
    rcases (getElem?_declare decl p v).1 hx with hx | ⟨-, rfl⟩
    · rcases mem_cons.1 hb with rfl | hb
      · simp at hx
      · exact h.owner hb hx
    · exact current_mem h.lambdas

theorem enter (hp : p.Ok) (h : ∀ {b : Nat × Nat} {x : Variable}, b ∈ p.visible →
    p.out.vars[b.2]? = some x → x.owner ∈ p.around) (id : Nat) :
    Owned { p.next with lambdas := (id, p.next.pos) :: p.next.lambdas } where
  ok := ⟨((passes_next p).ok hp).vars, hp.visible, hp.decls, hp.captured⟩
  lambdas := cons_ne_nil _ _
  owner hb hx := mem_cons_of_mem _ (h hb hx)

theorem inside (h : p.Owned) (e : Expr) : (inside e p).Owned := by
  cases e with
  | lambda id name params body => exact (enter h.ok h.owner id).declareAll id params
  | block id vars es => exact (h.passes (passes_next p)).declareAll id vars
  | _ => exact h.passes (passes_next p)

end Owned

theorem Visited.owned (h : Visited U root e p) : p.Owned := by
  induction h with
  | body => exact (Owned.enter ok_empty (fun hb => absurd hb not_mem_nil) root.id).declareAll root.id root.params
  | part _ hstop ih => exact (ih.inside _).passes (passes_stops hstop).1

/-! ## What is captured -/

theorem captured_write (p : CapturePass) (v : Option Var) : (p.write v).out.captured = p.out.captured := by
  unfold write
  split
  · rfl
  · split <;> rfl

theorem captured_declareAll (p : CapturePass) (decl : Nat) (vs : List Var) :
    (p.declareAll decl vs).out.captured = p.out.captured := by
  induction vs generalizing p with
  | nil => rfl
  | cons v vs ih => exact ih _

theorem captured_inside (e : Expr) (p : CapturePass) : (CapturePass.inside e p).out.captured = p.out.captured := by
  cases e with
  | lambda | block => exact captured_declareAll _ _ _
  | _ => rfl

theorem captured_outside (h : ∀ v, e ≠ .var v) (q : CapturePass) :
    (outside U e p q).out.captured = q.out.captured := by
  cases e with
  | var v => exact absurd rfl (h v)
  | call o m args =>
    rw [outside, writeReceiver]
    split
    · exact captured_write q _
    · rfl
  | assign target value => exact captured_write q _
  | _ => rfl

theorem of_inside (k : Nat) (e : Expr) (p : CapturePass) : (CapturePass.inside e p).out.of k = p.out.of k := by
  rw [Captures.of, captured_inside]
  rfl

theorem of_outside (h : ∀ v, e ≠ .var v) (k : Nat) (q : CapturePass) : (outside U e p q).out.of k = q.out.of k := by
  rw [Captures.of, captured_outside h]
  rfl

/-- The number of the variable that lambda `k` captures if the variable of identity `x` is mentioned here: `k` must be
between the owner of the variable and here. -/
def link (p : CapturePass) (k x : Nat) : Option Nat :=
  (p.visible.lookup x).filter fun i => (p.lambdas.takeWhile (·.1 != (p.out.vars.getD i default).owner)).any (·.1 == k)

theorem of_captures (k i : Nat) (ls : List (Nat × Nat)) (p : CapturePass) :
    (ls.foldl (capture i) p).out.of k = if ls.any (·.1 == k) then note (p.out.of k) i else p.out.of k := by
  induction ls generalizing p with
  | nil => rfl
  | cons l ls ih =>
    rw [foldl_cons, ih, of_capture, any_cons]
    by_cases hl : k = l.1
    · subst hl
      have hnote : note (note (p.out.of l.1) i) i = note (p.out.of l.1) i := if_pos (mem_note.2 (.inr rfl))
      simp [hnote]
    · rw [if_neg hl, beq_false_of_ne (Ne.symm hl), Bool.false_or]

theorem of_reference (k : Nat) (p : CapturePass) (v : Var) :
    (p.reference v).out.of k = (p.link k v.id).toList.foldl note (p.out.of k) := by
  unfold reference link
  cases p.visible.lookup v.id with
  | none => rfl
  | some i =>
    rw [filter_some]
    refine (of_captures k i _ p).trans ?_
    split <;> rfl

section

variable {k : Nat}

theorem link_passes (h : p.Ok) (hq : Passes p q) : q.link k = p.link k := by
  funext x
  unfold link
  rw [hq.visible, hq.lambdas]
  cases hx : p.visible.lookup x with
  | none => rfl
  | some i =>
    obtain ⟨y, hy, -⟩ := h.visible (mem_of_lookup hx)
    obtain ⟨z, hz, hyz⟩ := (hq.grows h).vars hy
    rw [filter_some, filter_some, Array.getD_eq_getD_getElem?, Array.getD_eq_getD_getElem?, hy, hz,
      getD_some, getD_some, hyz.owner]

/-- A variable that is declared here belongs to the innermost lambda, and no lambda between them captures it. -/
theorem link_declareAll (h : p.Owned) (decl : Nat) (vs : List Var) (x : Nat) :
    (p.declareAll decl vs).link k x = if x ∈ vs.map (·.id) then none else p.link k x := by
  induction vs generalizing p with
  | nil => rfl
  | cons v vs ih =>
    have hdeclare : (declare decl p v).link k x = if x = v.id then none else p.link k x := by
      simp only [link, declare, lookup_cons]
      by_cases hx : x = v.id
      · obtain ⟨l, ls, hl⟩ := exists_cons_of_ne_nil h.lambdas
        simp [hx, current, hl]
      · rw [if_neg hx, beq_false_of_ne hx]
        cases hi : p.visible.lookup x with
        | none => rfl
        | some i =>
          have hne : i ≠ p.out.vars.size := Nat.ne_of_lt (h.ok.lt (mem_of_lookup hi))
          simp only [filter_some, Array.getD_eq_getD_getElem?, Array.getElem?_push, if_neg hne]
    have howned : (declare decl p v).Owned := h.declareAll decl [v]
    rw [declareAll, foldl_cons, ← declareAll, ih howned, hdeclare]
    by_cases hx : x = v.id
    · simp [hx]
    · simp [hx]

/-- Variables from outside that are mentioned in a lambda are captured by it, and by all lambdas around it that would
capture them if they were mentioned there. -/
theorem link_enter (h : p.Owned) {id : Nat} (hid : id ∉ p.around) (x : Nat) :
    link { p.next with lambdas := (id, p.next.pos) :: p.next.lambdas } k x =
      if k = id then p.visible.lookup x else p.link k x := by
  simp only [link, next]
  cases hi : p.visible.lookup x with
  | none => simp
  | some i =>
    obtain ⟨y, hy, -⟩ := h.ok.visible (mem_of_lookup hi)
    have howner : id ≠ y.owner := fun heq => hid (heq ▸ h.owner (mem_of_lookup hi) hy)
    have htake : ((id, p.pos + 1) :: p.lambdas).takeWhile (·.1 != (p.out.vars.getD i default).owner) =
        (id, p.pos + 1) :: p.lambdas.takeWhile (·.1 != (p.out.vars.getD i default).owner) := by
      refine takeWhile_cons_of_pos ?_
      rw [Array.getD_eq_getD_getElem?, hy]
      simpa using howner
    rw [filter_some, filter_some, htake, any_cons]
    by_cases hk : k = id
    · simp [hk]
    · simp only [beq_false_of_ne (Ne.symm hk), Bool.false_or, if_neg hk]

theorem link_inside (h : p.Owned) {around : List Nat} (he : e.Apart around) (hsub : p.around ⊆ around)
    (hk : k ∈ around) (x : Nat) :
    (CapturePass.inside e p).link k x = if x ∈ e.declares.map (·.id) then none else p.link k x := by
  cases e with
  | lambda id name params body =>
    have hid : id ∉ around := he.not_mem rfl
    have hne : k ≠ id := fun heq => hid (heq ▸ hk)
    refine (link_declareAll (.enter h.ok h.owner id) id params x).trans ?_
    rw [link_enter h (fun hmem => hid (hsub hmem)), if_neg hne]
    rfl
  | block id vars es => exact link_declareAll (h.passes (passes_next p)) id vars x
  | _ => rfl

theorem of_visitAll_of {es : List Expr} {around : List Nat} (h : ∀ c ∈ es, ∀ {p : CapturePass}, p.around ⊆ around →
      p.Owned → (visit U c p).out.of k = (c.free.filterMap (p.link k)).foldl note (p.out.of k))
    (hsub : p.around ⊆ around) (hp : p.Owned) :
    (visitAll U es p).out.of k = ((es.flatMap Expr.free).filterMap (p.link k)).foldl note (p.out.of k) := by
  induction es generalizing p with
  | nil => rfl
  | cons e es ih =>
    have hpass := passes_visit (U := U) e p
    have hsub' : (visit U e p).around ⊆ around := by rw [CapturePass.around, hpass.lambdas]; exact hsub
    rw [visitAll, ih (fun c hc => h c (mem_cons_of_mem _ hc)) hsub' (hp.passes hpass), link_passes hp.ok hpass,
      h e mem_cons_self hsub hp, flatMap_cons, filterMap_append, foldl_append]

/-- **What lambda `k` captures in an expression** is what the free variables of the expression link it to, each of them
once and in the order of their first mention. -/
theorem of_visit (e : Expr) {around : List Nat} (he : e.Apart around) (hsub : p.around ⊆ around) (hk : k ∈ around)
    (hp : p.Owned) : (visit U e p).out.of k = (e.free.filterMap (p.link k)).foldl note (p.out.of k) := by
  induction e using Expr.childInduction generalizing p around with
  | node e ih =>
    have hpart : ∀ c ∈ e.children, c.Apart (e.lambda?.toList ++ around) := fun c hc => he.child hc
    have hparts := of_visitAll_of (U := U) (k := k) (p := CapturePass.inside e p)
      (fun c hc {_} hsub hp => ih c hc (hpart c hc) hsub (mem_append_right _ hk) hp)
      (around_inside e p ▸ append_subset.2
        ⟨subset_append_left _ _, List.Subset.trans hsub (subset_append_right _ _)⟩) (hp.inside e)
    rw [of_inside] at hparts
    rw [visit_eq]
    by_cases hvar : ∃ v, e = .var v
    · obtain ⟨v, rfl⟩ := hvar
      refine (of_reference k p.next v).trans ?_
      rw [Expr.free, filterMap_cons]
      cases hlink : p.link k v.id with
      | none => rw [show p.next.link k v.id = none from hlink]; rfl
      | some i => rw [show p.next.link k v.id = some i from hlink]; rfl
    · have hvar : ∀ v, e ≠ .var v := fun v hv => hvar ⟨v, hv⟩
      rw [of_outside hvar, hparts, Expr.free_eq hvar, filterMap_filter]
      congr 2
      funext x
      rw [link_inside hp he hsub hk]
      split <;> simp_all

theorem link_eq_some {x i : Nat} (hi : p.visible.lookup x = some i) {y : Variable} (hy : p.out.vars[i]? = some y)
    {l : Nat × Nat} (hl : l ∈ p.lambdas.takeWhile (·.1 != y.owner)) : p.link l.1 x = some i := by
  rw [link, hi, filter_some, Array.getD_eq_getD_getElem?, hy, if_pos]
  exact any_eq_true.2 ⟨l, hl, beq_self_eq_true _⟩

end

end CapturePass

namespace Captures

open CapturePass

variable {U : Universe} {root : Lambda} {inline : Bool} {e : Expr} {p : CapturePass}

def pass (U : Universe) (root : Lambda) : CapturePass :=
  visit U root.body (({} : CapturePass).enterLambda root.id root.params)

theorem getD_analyze {i : Nat} {x : Variable} (hx : (pass U root).out.vars[i]? = some x) :
    (analyze U root inline).vars.getD i default =
      if (pass U root).out.isCurrent i x then { x with mode := modeOf inline x } else x := by
  have hvars : (analyze U root inline).vars = (pass U root).out.vars.mapIdx fun i x =>
    if (pass U root).out.isCurrent i x then { x with mode := modeOf inline x } else x := rfl
  rw [hvars, Array.getD_eq_getD_getElem?, Array.getElem?_mapIdx, hx]
  rfl

theorem analyze_keeps (inline : Bool) {i : Nat} {x : Variable} (hx : (pass U root).out.vars[i]? = some x) :
    ((analyze U root inline).vars.getD i default).var = x.var ∧
      ((analyze U root inline).vars.getD i default).owner = x.owner ∧
      ((analyze U root inline).vars.getD i default).decl = x.decl := by
  rw [getD_analyze hx]
  split <;> exact ⟨rfl, rfl, rfl⟩

theorem ok_pass (U : Universe) (root : Lambda) : (pass U root).Ok :=
  (passes_visit root.body _).ok (Visited.body (U := U)).ends.1

theorem number?_self {decl n : Nat} {v : Var} (h : (analyze U root inline).number? decl v = some n) :
    (analyze U root inline).number? ((analyze U root inline).vars.getD n default).decl
      ((analyze U root inline).vars.getD n default).var = some n := by
  have hlookup : (pass U root).out.decls.lookup (decl, v.id) = some n := h
  obtain ⟨x, hx, hdecl, hid⟩ := (ok_pass U root).decls (mem_of_lookup hlookup)
  obtain ⟨hvar, -, hdecl'⟩ := analyze_keeps inline hx
  rw [hvar, hdecl', hdecl, number?, hid]
  exact h

theorem recorded_of_visible (inline : Bool) (h : Visited U root e p) {b : Nat × Nat} (hb : b ∈ p.visible) :
    ((analyze U root inline).vars.getD b.2 default).var.id = b.1 ∧
      ((analyze U root inline).vars.getD b.2 default).owner ∈ p.around ∧
      ∃ x y, p.out.vars[b.2]? = some x ∧ (pass U root).out.vars[b.2]? = some y ∧ x.Before y := by
  obtain ⟨hp, hends⟩ := h.ends
  obtain ⟨x, hx, hid⟩ := hp.visible hb
  obtain ⟨y, hy, hxy⟩ := (((passes_visit e p).grows hp).trans hends).vars hx
  obtain ⟨hvar, howner, -⟩ := analyze_keeps inline hy
  refine ⟨by rw [hvar, hxy.var, hid], ?_, x, y, hx, hy, hxy⟩
  rw [howner, hxy.owner]
  exact h.owned.owner hb hx

theorem captured_of_mentioned {v : Var} {i : Nat} {y : Variable} (h : Visited U root (.var v) p)
    (hi : p.visible.lookup v.id = some i) (hy : (pass U root).out.vars[i]? = some y) {l : Nat × Nat}
    (hl : l ∈ p.lambdas.takeWhile (·.1 != y.owner)) :
    i ∈ (pass U root).out.of l.1 ∧ ∃ a ≤ l.2, y.firstCapture = some a := by
  obtain ⟨-, -, x, y', hx, hy', hxy⟩ := recorded_of_visible true h (mem_of_lookup hi)
  obtain rfl : y' = y := some.inj (hy'.symm.trans hy)
  obtain ⟨hp, hends⟩ := h.ends
  rw [hxy.owner] at hl
  constructor
  · refine hends.captured ?_
    rw [visit, of_reference, link_eq_some (p := p.next) hi hx hl]
    exact mem_note.2 (.inr rfl)
  · obtain ⟨z, hz, a, ha, hfirst⟩ := reference_recorded ((passes_next p).ok hp) hi hx hl
    obtain ⟨z', hz', hzy⟩ := hends.vars hz
    obtain rfl : z' = y' := some.inj (hz'.symm.trans hy)
    obtain ⟨b, hb, hfirst⟩ := hzy.captured a hfirst
    exact ⟨b, Nat.le_trans hb ha, hfirst⟩

theorem recorded_of_written {v : Var} {i : Nat} {y : Variable} (h : Visited U root e p) (hv : written? U e = some v)
    (hi : p.visible.lookup v.id = some i) (hy : (pass U root).out.vars[i]? = some y) :
    y.nestedWrite = true ∨ y.owner = p.current ∧ ∃ b ≥ (visit U e p).pos, y.lastWrite = some b := by
  obtain ⟨q, hpass, hvisit⟩ := visit_of_written hv p
  obtain ⟨x, hx, hwrite⟩ := write_recorded (hpass.ok h.ends.1) (hpass.visible ▸ hi)
  rw [← hvisit] at hx hwrite
  obtain ⟨y', hy', hxy⟩ := h.ends.2.vars hx
  obtain rfl : y' = y := some.inj (hy'.symm.trans hy)
  rcases hwrite with hnested | ⟨hcurrent, hlast⟩
  · exact .inl (hxy.nested hnested)
  · refine .inr ⟨?_, hxy.written _ hlast⟩
    rw [hxy.owner, hcurrent, current, current, hpass.lambdas]

/-- **A variable that a closure assigns to is shared.** The closure captures the variable. -/
theorem shared_of_assigned {v : Var} {value : Expr} {i : Nat} (h : Visited U root (.assign (.var v) value) p)
    (hi : p.visible.lookup v.id = some i) (howner : ((analyze U root inline).vars.getD i default).owner ≠ p.current) :
    i ∈ (analyze U root inline).of p.current ∧
      ((analyze U root inline).number? ((analyze U root inline).vars.getD i default).decl
        ((analyze U root inline).vars.getD i default).var = some i →
        (analyze U root inline).mode i = .byReference) := by
  obtain ⟨-, -, -, y, -, hy, -⟩ := recorded_of_visible inline h (mem_of_lookup hi)
  obtain ⟨hvar, hyowner, hdecl⟩ := analyze_keeps inline hy
  rw [hyowner] at howner
  -- the target is mentioned, with the innermost lambda between it and its owner
  obtain ⟨l, hl, hcurrent⟩ := exists_between h.owned.lambdas howner
  obtain ⟨hmem, a, -, hfirst⟩ := captured_of_mentioned (.part h mem_cons_self) hi hy hl
  refine ⟨hcurrent ▸ hmem, fun hcur => ?_⟩
  have hnested : y.nestedWrite = true := (recorded_of_written h rfl hi hy).resolve_right fun hw => howner hw.1
  have hisCurrent : (pass U root).out.isCurrent i y = true := by
    rw [hvar, hdecl] at hcur
    exact decide_eq_true hcur
  rw [mode, getD_analyze hy, if_pos hisCurrent]
  simp [modeOf, hfirst, hnested]

theorem of_root (hroot : root.toExpr.Apart []) : (analyze U root inline).of root.id = [] := by
  have hbody : root.body.Apart [root.id] := hroot.child mem_cons_self
  have hstart := Owned.enter ok_empty (fun hb => absurd hb not_mem_nil) root.id
  have hlink : ∀ x, link (({} : CapturePass).enterLambda root.id root.params) root.id x = none := fun x =>
    (link_declareAll hstart root.id root.params x).trans (ite_self none)
  have haround : (({} : CapturePass).enterLambda root.id root.params).around = [root.id] := around_inside root.toExpr {}
  have hof : (visit U root.body (({} : CapturePass).enterLambda root.id root.params)).out.of root.id = _ :=
    of_visit root.body hbody (fun _ h => haround ▸ h) mem_cons_self (hstart.declareAll root.id root.params)
  rw [funext hlink, filterMap_none] at hof
  exact hof.trans (of_inside root.id root.toExpr {})

end Captures

end TreeMachine
