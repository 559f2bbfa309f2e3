import TreeMachine.Proofs.Codegen.CaptureScopes
import Mathlib.Data.List.Induction
import Mathlib.Data.List.Nodup

/-!
# A lambda captures its free variables

The pass over a tree keeps a list for each lambda, to which the mention of a variable adds at any depth below. In a
tree in which no node stands at two places, the list of a lambda is in the end what its free variables stand for where
the lambda stands, each once and in the order of their first mention (`Captures.of_lambda`).

* **`Expr.At`** names the places of a tree with the declarations around them, as they can be read off the tree.
* **`CapturePass.Shows`** says that the variables that the pass has in scope are those.
* `Captures.mode_eq_none_iff` says which variables closures do not see: the ones that no lambda means.
-/

open List

namespace TreeMachine

open TreeMachine.Expr

variable {owner i : Nat} {es : List Expr} {x : Variable}

/-! ## Places of a tree -/

/-- A declaration in a tree: the lambda that it belongs to, the node that makes it, and the variable. -/
structure Declaration where
  owner : Nat
  decl : Nat
  var : Var
deriving DecidableEq

def Variable.declaration (x : Variable) : Declaration := ⟨x.owner, x.decl, x.var⟩

namespace Expr

def node? : Expr → Option Nat
  | .lambda id _ _ _ _ _ | .block id _ _ => some id
  | _ => none

def nodes (e : Expr) : List Nat := e.node?.toList ++ e.children.attach.flatMap fun c => nodes c.1
termination_by sizeOf e
decreasing_by exact sizeOf_child c.2

theorem nodes_eq (e : Expr) : e.nodes = e.node?.toList ++ e.children.flatMap nodes := by
  rw [nodes, flatMap_subtype (g := nodes) fun _ _ => rfl, unattach_attach]

def declarations (owner : Nat) (e : Expr) : List Declaration :=
  e.node?.toList.flatMap fun id => e.declares.map fun v => ⟨e.lambda?.getD owner, id, v⟩

/-- An expression stands in a tree, in lambda `owner` and in the scope of declarations, innermost first. -/
inductive At (root : Expr) : (owner : Nat) → (scope : List Declaration) → Expr → Prop
  | root : At root 0 [] root
  | part {owner : Nat} {scope : List Declaration} {e c : Expr} : At root owner scope e → c ∈ e.children →
    At root (e.lambda?.getD owner) ((e.declarations owner).reverse ++ scope) c

/-- The declarations outside an expression that its free variables mean, in the order of their mention. -/
def meant (scope : List Declaration) (e : Expr) : List Declaration :=
  e.free.filterMap fun x => scope.find? (·.var.id = x)

/-- **A node stands at one place only**, and declares no variable twice. -/
structure Unshared (root : Expr) : Prop where
  nodes : root.nodes.Nodup
  vars : ∀ {owner : Nat} {scope : List Declaration} {e : Expr}, root.At owner scope e → (e.declares.map (·.id)).Nodup

theorem At.trans {root e x : Expr} {owner' : Nat} {scope scope' : List Declaration}
    (h : root.At owner scope e) (hx : e.At owner' scope' x) : ∃ o s, root.At o s x := by
  induction hx with
  | root => exact ⟨_, _, h⟩
  | part _ hc ih =>
    obtain ⟨o, s, ih⟩ := ih
    exact ⟨_, _, ih.part hc⟩

theorem Unshared.of_within (n : Nat) {root : Expr} (hnodes : root.nodes.Nodup)
    (h : root.Within (fun e => (e.declares.map (·.id)).Nodup) n) : root.Unshared where
  nodes := hnodes
  vars {owner scope e} he := by
    have hwithin : ∃ m, e.Within (fun e => (e.declares.map (·.id)).Nodup) (m + 1) := by
      induction he with
      | root =>
        cases n with
        | zero => cases h
        | succ n => exact ⟨n, h⟩
      | part _ hc ih =>
        obtain ⟨m, ih⟩ := ih
        cases m with
        | zero => cases ih.2 _ hc
        | succ m => exact ⟨m, ih.2 _ hc⟩
    exact hwithin.choose_spec.1

theorem Unshared.child {e c : Expr} (h : e.Unshared) (hc : c ∈ e.children) : c.Unshared where
  nodes := (nodup_flatMap.1 (nodes_eq e ▸ h.nodes).of_append_right).1 c hc
  vars hx := by
    obtain ⟨o, s, hx⟩ := (At.root.part hc).trans hx
    exact h.vars hx

theorem exists_node {e : Expr} {k : Nat} (h : k ∈ e.nodes) : ∃ o s x, e.At o s x ∧ x.node? = some k := by
  induction e using childInduction with
  | node e ih =>
    rw [nodes_eq] at h
    rcases mem_append.1 h with h | h
    · exact ⟨_, _, e, .root, Option.mem_toList.1 h⟩
    · obtain ⟨c, hc, h⟩ := mem_flatMap.1 h
      obtain ⟨o, s, x, hx, hk⟩ := ih c hc h
      obtain ⟨o, s, hx⟩ := (At.root.part hc).trans hx
      exact ⟨o, s, x, hx, hk⟩

theorem apart_of_nodes {e : Expr} {around : List Nat} (h : e.nodes.Nodup) (hd : ∀ id ∈ e.nodes, id ∉ around) :
    e.Apart around := by
  induction e using childInduction generalizing around with
  | node e ih =>
    rw [nodes_eq] at h hd
    have hown : ∀ id, e.lambda? = some id → id ∈ e.node?.toList := fun id hid => by
      cases e <;> simp_all [lambda?, node?]
    refine .node (fun id hid => hd id (mem_append_left _ (hown id hid))) fun c hc => ih c hc ?_ fun id hid hmem => ?_
    · exact (nodup_flatMap.1 h.of_append_right).1 c hc
    · have hid : id ∈ e.children.flatMap nodes := mem_flatMap.2 ⟨c, hc, hid⟩
      rcases mem_append.1 hmem with hmem | hmem
      · exact disjoint_of_nodup_append h (hown id (Option.mem_toList.1 hmem)) hid
      · exact hd id (mem_append_right _ hid) hmem

end Expr

theorem eraseDups_concat {α : Type} [DecidableEq α] (xs : List α) (x : α) :
    (xs ++ [x]).eraseDups = if x ∈ xs then xs.eraseDups else xs.eraseDups ++ [x] := by
  rw [eraseDups_append]
  split <;> simp [removeAll, eraseDups_cons, *]

theorem eraseDups_map {α β : Type} [DecidableEq α] [DecidableEq β] {f : α → β} {xs : List α}
    (h : ∀ a ∈ xs, ∀ b ∈ xs, f a = f b → a = b) : (xs.map f).eraseDups = xs.eraseDups.map f := by
  induction xs using reverseRecOn with
  | nil => rfl
  | append_singleton xs x ih =>
    have hmem : f x ∈ xs.map f ↔ x ∈ xs := by
      refine ⟨fun hx => ?_, mem_map_of_mem⟩
      obtain ⟨y, hy, heq⟩ := mem_map.1 hx
      rwa [← h y (mem_append_left _ hy) x (by simp) heq]
    rw [map_append, map_singleton, eraseDups_concat, eraseDups_concat, if_congr hmem rfl rfl,
      ih fun a ha b hb => h a (mem_append_left _ ha) b (mem_append_left _ hb)]
    split <;> simp

namespace CapturePass

variable {U : Universe} {p q : CapturePass} {e c : Expr} {root : Lambda} {k : Nat} {scope : List Declaration}

theorem foldl_note (xs : List Nat) : xs.foldl note [] = xs.eraseDups := by
  induction xs using reverseRecOn with
  | nil => rfl
  | append_singleton xs x ih =>
    rw [foldl_append, ih, eraseDups_concat, foldl_cons, foldl_nil, note]
    simp

theorem mem_foldl_note {xs ns : List Nat} (h : i ∈ ns ∨ i ∈ xs) : i ∈ xs.foldl note ns := by
  induction xs generalizing ns with
  | nil => exact h.resolve_right not_mem_nil
  | cons x xs ih =>
    rw [foldl_cons]
    refine ih ?_
    rw [mem_note]
    simp_all [or_assoc]

/-! ## The list of a lambda -/

theorem link_eq_none (hk : k ∉ p.around) (x : Nat) : p.link k x = none := by
  refine Option.filter_eq_none_iff.2 fun i _ hany => ?_
  obtain ⟨l, hl, hlk⟩ := any_eq_true.1 hany
  exact hk (beq_iff_eq.1 hlk ▸ mem_map_of_mem (List.IsPrefix.subset ( takeWhile_prefix _) hl))

theorem of_visitAll_other (hnodes : (es.flatMap nodes).Nodup)
    (haround : ∀ id ∈ es.flatMap nodes, id ∉ p.around) (hk : k ∉ es.flatMap nodes) (hk' : k ∉ p.around)
    (hp : p.Owned) : (visitAll U es p).out.of k = p.out.of k := by
  have hes : ∀ c ∈ es, c.Apart (k :: p.around) := fun c hc => by
    refine apart_of_nodes ((nodup_flatMap.1 hnodes).1 c hc) fun id hid hmem => ?_
    have hid := mem_flatMap.2 ⟨c, hc, hid⟩
    rcases mem_cons.1 hmem with rfl | hmem
    · exact hk hid
    · exact haround id hid hmem
  rw [of_visitAll_of (fun c hc {_} hsub hp => of_visit c (hes c hc) hsub mem_cons_self hp)
    (subset_cons_self _ _) hp, funext (link_eq_none hk'), filterMap_none]
  rfl

theorem of_stopsAll (hnodes : (es.flatMap nodes).Nodup)
    (haround : ∀ id ∈ es.flatMap nodes, id ∉ p.around) (hp : p.Owned) (h : (c, q) ∈ stopsAll U es p)
    (hk : k ∈ c.nodes) : q.out.of k = p.out.of k ∧ (visitAll U es p).out.of k = (visit U c q).out.of k := by
  induction es generalizing p with
  | nil => cases h
  | cons e es ih =>
    have hpass := passes_visit (U := U) e p
    have haround' : (visit U e p).around = p.around := by rw [around, hpass.lambdas]; rfl
    rw [flatMap_cons] at hnodes haround
    rw [← haround'] at haround
    have hrest := fun id hid => haround id (mem_append_right _ hid)
    rcases mem_cons.1 h with h | h
    · cases h
      exact ⟨rfl, of_visitAll_other hnodes.of_append_right hrest (disjoint_of_nodup_append hnodes hk)
        (haround k (mem_append_left _ hk)) (hp.passes hpass)⟩
    · have hmem := mem_flatMap.2 ⟨c, mem_of_stopsAll h, hk⟩
      have hone : [e].flatMap nodes = e.nodes := append_nil _
      have hskip : (visitAll U [e] p).out.of k = p.out.of k :=
        of_visitAll_other (hone ▸ hnodes.of_append_left)
          (fun id hid => haround' ▸ haround id (mem_append_left _ (hone ▸ hid)))
          (fun hk => disjoint_of_nodup_append hnodes (hone ▸ hk) hmem) (haround' ▸ hrest k hmem) hp
      obtain ⟨hq, hends⟩ := ih hnodes.of_append_right hrest (hp.passes hpass) h
      exact ⟨hq.trans hskip, hends⟩

theorem around_parts (hnodes : e.nodes.Nodup) (haround : ∀ id ∈ e.nodes, id ∉ p.around) :
    ∀ id ∈ e.children.flatMap nodes, id ∉ (inside e p).around := by
  intro id hid hmem
  rw [nodes_eq] at hnodes haround
  rw [around_inside] at hmem
  rcases mem_append.1 hmem with hmem | hmem
  · refine disjoint_of_nodup_append hnodes (?_ : id ∈ _) hid
    cases e <;> simp_all [lambda?, node?]
  · exact haround id (mem_append_right _ hid) hmem

/-- The lists of the lambdas of an expression are empty when the pass comes to it, and complete when it is through. -/
theorem Visited.nodes (hroot : root.toExpr.nodes.Nodup) (h : Visited U root e p) :
    e.nodes.Nodup ∧ (∀ id ∈ e.nodes, id ∉ p.around) ∧
      ∀ k ∈ e.nodes, p.out.of k = [] ∧ (Captures.pass U root).out.of k = (visit U e p).out.of k := by
  induction h with
  | body =>
    rw [Expr.nodes_eq] at hroot
    have haround : (({} : CapturePass).enterLambda root.id root.params).around = [root.id] :=
      around_inside root.toExpr {}
    have hroot : (root.id :: root.body.nodes).Nodup := by simpa [Lambda.toExpr, Expr.node?, Expr.children] using hroot
    obtain ⟨hid, hnodes⟩ := nodup_cons.1 hroot
    refine ⟨hnodes, fun id hmem heq => hid ?_, fun k _ => ⟨of_inside k root.toExpr {}, rfl⟩⟩
    rw [haround] at heq
    exact mem_singleton.1 heq ▸ hmem
  | @part e c p q hvisited hstop ih =>
    obtain ⟨hnodes, haround, hof⟩ := ih
    have hc := mem_of_stopsAll hstop
    have hin := around_parts hnodes haround
    rw [Expr.nodes_eq] at hnodes
    have hpart : ∀ {k}, k ∈ c.nodes → k ∈ e.children.flatMap Expr.nodes := fun hk => mem_flatMap.2 ⟨c, hc, hk⟩
    refine ⟨(nodup_flatMap.1 hnodes.of_append_right).1 c hc, fun id hid => ?_, fun k hk => ?_⟩
    · rw [around, (passes_stops hstop).1.lambdas]
      exact hin id (hpart hid)
    · obtain ⟨hq, hall⟩ := of_stopsAll hnodes.of_append_right hin (hvisited.owned.inside e) hstop hk
      obtain ⟨hempty, hend⟩ := hof k (by rw [Expr.nodes_eq]; exact mem_append_right _ (hpart hk))
      have hvar : ∀ v, e ≠ .var v := fun v hv => by
        rw [hv] at hc
        cases hc
      rw [visit_eq, of_outside hvar, hall] at hend
      exact ⟨hq.trans ((of_inside k e p).trans hempty), hend⟩

/-! ## Scopes -/

def Shows (p : CapturePass) (scope : List Declaration) : Prop :=
  List.Forall₂ (fun b d => b.1 = d.var.id ∧ ∃ x, p.out.vars[b.2]? = some x ∧ x.declaration = d) p.visible scope

namespace Shows

theorem grows (h : p.Shows scope) (hq : Grows p q) (hvisible : q.visible = p.visible) : q.Shows scope := by
  rw [Shows, hvisible]
  refine h.imp fun b d ⟨hid, x, hx, hd⟩ => ⟨hid, ?_⟩
  obtain ⟨y, hy, hxy⟩ := hq.vars hx
  exact ⟨y, hy, by rw [← hd, Variable.declaration, hxy.owner, hxy.decl, hxy.var]; rfl⟩

theorem declareAll (h : p.Shows scope) (decl : Nat) (vs : List Var) :
    (p.declareAll decl vs).Shows ((vs.map fun v => ⟨p.current, decl, v⟩).reverse ++ scope) := by
  induction vs generalizing p scope with
  | nil => exact h
  | cons v vs ih =>
    have hdeclare : (declare decl p v).Shows (⟨p.current, decl, v⟩ :: scope) := by
      refine .cons ⟨rfl, _, (getElem?_declare decl p v).2 (.inr ⟨rfl, rfl⟩), rfl⟩ (h.imp fun b d ⟨hid, x, hx, hd⟩ => ?_)
      exact ⟨hid, x, (getElem?_declare decl p v).2 (.inl hx), hd⟩
    rw [map_cons, reverse_cons, append_assoc]
    exact ih hdeclare

theorem inside (h : p.Shows scope) (e : Expr) : (inside e p).Shows ((e.declarations p.current).reverse ++ scope) := by
  cases e with
  | lambda id name params body result type =>
    have henter : Shows { p.next with lambdas := (id, p.next.pos) :: p.next.lambdas } scope := h
    rw [show (lambda id name params body result type).declarations p.current =
      params.map fun v => ⟨id, id, v⟩ from append_nil _]
    exact henter.declareAll id params
  | block id vars es =>
    have hnext : p.next.Shows scope := h
    rw [show (block id vars es).declarations p.current = vars.map fun v => ⟨p.current, id, v⟩ from
      append_nil _]
    exact hnext.declareAll id vars
  | _ => exact h

end Shows

theorem current_inside (e : Expr) (p : CapturePass) : (inside e p).current = e.lambda?.getD p.current := by
  cases e with
  | lambda id name params body =>
    rw [inside, enterLambda, current, lambdas_declareAll]
    rfl
  | block id vars es =>
    rw [inside, current, lambdas_declareAll]
    rfl
  | _ => rfl

variable (U root) in
/-- The pass comes to an expression in a state, or begins with it. -/
def Comes (e : Expr) (p : CapturePass) : Prop := Visited U root e p ∨ e = root.toExpr ∧ p = {}

theorem Comes.ends (h : Comes U root e p) : p.Ok ∧ Grows (inside e p) (Captures.pass U root) := by
  rcases h with h | ⟨rfl, rfl⟩
  · obtain ⟨hp, hends⟩ := h.ends
    have hin := (leads_inside e p).ok hp
    have hparts := passes_visitAll (U := U) e.children (inside e p)
    rw [visit_eq] at hends
    exact ⟨hp, ((hparts.grows hin).trans (grows_outside (hparts.ok hin))).trans hends⟩
  · exact ⟨ok_empty, (passes_visit root.body _).grows ((leads_inside root.toExpr _).ok ok_empty)⟩

theorem Comes.grows (h : Comes U root e p) : Grows p (Captures.pass U root) :=
  ((leads_inside e p).grows h.ends.1).trans h.ends.2

theorem Comes.child (h : Comes U root e p) (hc : c ∈ e.children) : ∃ q, Comes U root c q ∧ Passes (inside e p) q := by
  obtain ⟨q, hq⟩ := exists_stop (U := U) hc p
  refine ⟨q, .inl ?_, (passes_stops hq).1⟩
  rcases h with h | ⟨rfl, rfl⟩
  · exact .part h hq
  · obtain ⟨rfl, rfl⟩ : c = root.body ∧ q = _ := by simpa [stops, stopsAll, Lambda.toExpr, children] using hq
    exact .body

/-- **The pass comes to every place of the tree**, with the declarations around it in scope. -/
theorem exists_comes (h : root.toExpr.At owner scope e) :
    ∃ p, Comes U root e p ∧ p.current = owner ∧ p.Shows scope := by
  induction h with
  | root => exact ⟨{}, .inr ⟨rfl, rfl⟩, rfl, .nil⟩
  | @part owner scope e c _ hc ih =>
    obtain ⟨p, hp, rfl, hshows⟩ := ih
    obtain ⟨q, hq, hpass⟩ := hp.child hc
    refine ⟨q, hq, ?_, (hshows.inside e).grows (hpass.grows ((leads_inside e p).ok hp.ends.1)) hpass.visible⟩
    rw [current, hpass.lambdas, ← current, current_inside]

/-! ## Numbers -/

/-- Each variable is on record for its declaration. -/
def Numbered (p : CapturePass) : Prop :=
  ∀ {i : Nat} {x : Variable}, p.out.vars[i]? = some x → p.out.decls.lookup (x.decl, x.var.id) = some i

structure Settles (p q : CapturePass) : Prop where
  decls : q.out.decls = p.out.decls
  size : q.out.vars.size = p.out.vars.size

theorem settles_captures (i : Nat) (ls : List (Nat × Nat)) (p : CapturePass) : Settles p (ls.foldl (capture i) p) := by
  induction ls generalizing p with
  | nil => exact ⟨rfl, rfl⟩
  | cons l ls ih =>
    obtain ⟨hvars, hdecls⟩ := vars_capture i p l
    exact ⟨(ih _).decls.trans hdecls, (ih _).size.trans (by rw [hvars, Array.size_modify])⟩

theorem settles_write (p : CapturePass) (v : Option Var) : Settles p (p.write v) := by
  unfold write
  split
  · exact ⟨rfl, rfl⟩
  · split <;> exact ⟨rfl, Array.size_modify⟩

theorem settles_outside (q : CapturePass) : Settles q (outside U e p q) := by
  cases e with
  | var v =>
    rw [outside, reference]
    split
    · exact ⟨rfl, rfl⟩
    · exact settles_captures _ _ q
  | call o m args =>
    rw [outside, writeReceiver]
    split
    · exact settles_write q _
    · exact ⟨rfl, rfl⟩
  | assign target value => exact settles_write q _
  | _ => exact ⟨rfl, rfl⟩

theorem Numbered.settles (h : p.Numbered) (hg : Grows p q) (hs : Settles p q) : q.Numbered := by
  intro i y hy
  have hlt : i < p.out.vars.size := hs.size ▸ (Array.getElem?_eq_some_iff.1 hy).1
  obtain ⟨y', hy', hxy⟩ := hg.vars (Array.getElem?_eq_getElem hlt)
  obtain rfl : y' = y := Option.some.inj (hy'.symm.trans hy)
  rw [hs.decls, hxy.decl, hxy.var]
  exact h (Array.getElem?_eq_getElem hlt)

theorem numbered_declareAll {decl : Nat} {vs : List Var} (hvs : (vs.map (·.id)).Nodup) (h : p.Numbered)
    (hfresh : ∀ {i : Nat} {x : Variable}, p.out.vars[i]? = some x → x.decl = decl → x.var.id ∉ vs.map (·.id)) :
    (p.declareAll decl vs).Numbered ∧ ∀ {i : Nat} {x : Variable}, (p.declareAll decl vs).out.vars[i]? = some x →
      p.out.vars[i]? = some x ∨ x.decl = decl := by
  induction vs generalizing p with
  | nil => exact ⟨h, .inl⟩
  | cons v vs ih =>
    obtain ⟨hv, hvs⟩ := nodup_cons.1 hvs
    have hdeclare : (declare decl p v).Numbered := fun {i x} hx => by
      show lookup _ (((decl, v.id), p.out.vars.size) :: p.out.decls.filter (·.1 != (decl, v.id))) = _
      rw [lookup_replace]
      rcases (getElem?_declare decl p v).1 hx with hx | ⟨rfl, rfl⟩
      · rw [if_neg fun heq => ?_, h hx]
        obtain ⟨hdecl, hid⟩ := Prod.mk.inj heq
        exact hfresh hx hdecl (hid ▸ mem_cons_self)
      · exact if_pos rfl
    obtain ⟨hall, hnew⟩ := ih hvs hdeclare fun {i x} hx hdecl hmem => by
      rcases (getElem?_declare decl p v).1 hx with hx | ⟨-, rfl⟩
      · exact hfresh hx hdecl (mem_cons_of_mem _ hmem)
      · exact hv hmem
    refine ⟨hall, fun {i x} hx => ?_⟩
    rcases hnew hx with hx | hdecl
    · rcases (getElem?_declare decl p v).1 hx with hx | ⟨-, rfl⟩
      · exact .inl hx
      · exact .inr rfl
    · exact .inr hdecl

structure Numbers (ids : List Nat) (p q : CapturePass) : Prop where
  numbered : q.Numbered
  new : ∀ {i : Nat} {x : Variable}, q.out.vars[i]? = some x →
    x.decl ∈ ids ∨ ∃ y, p.out.vars[i]? = some y ∧ y.decl = x.decl

def Before (p : CapturePass) (ids : List Nat) : Prop :=
  ∀ {i : Nat} {x : Variable}, p.out.vars[i]? = some x → x.decl ∉ ids

theorem Numbers.before {ids ids' : List Nat} (h : Numbers ids p q) (hids : (ids ++ ids').Nodup)
    (hbefore : p.Before (ids ++ ids')) : q.Before ids' := by
  intro i x hx hmem
  rcases h.new hx with hx | ⟨y, hy, hyx⟩
  · exact disjoint_of_nodup_append hids hx hmem
  · exact hbefore hy (mem_append_right _ (hyx ▸ hmem))

theorem Numbers.trans {ids ids' : List Nat} (h : Numbers ids p q) (h' : Numbers ids' q r) :
    Numbers (ids ++ ids') p r := by
  refine ⟨h'.numbered, fun {i x} hx => ?_⟩
  rcases h'.new hx with hx | ⟨y, hy, hyx⟩
  · exact .inl (mem_append_right _ hx)
  · rw [← hyx]
    exact (h.new hy).imp_left (mem_append_left _)

theorem numbers_visitAll_of (h : ∀ c ∈ es, ∀ {p : CapturePass}, p.Ok → p.Numbered →
      p.Before c.nodes → Numbers c.nodes p (visit U c p)) (hnodes : (es.flatMap nodes).Nodup) (hp : p.Ok)
    (hn : p.Numbered) (hbefore : p.Before (es.flatMap nodes)) :
    Numbers (es.flatMap nodes) p (visitAll U es p) := by
  induction es generalizing p with
  | nil => exact ⟨hn, fun {i x} hx => .inr ⟨x, hx, rfl⟩⟩
  | cons e es ih =>
    rw [flatMap_cons] at hnodes hbefore ⊢
    have hone := h e mem_cons_self hp hn fun hx hmem => hbefore hx (mem_append_left _ hmem)
    exact hone.trans (ih (fun c hc => h c (mem_cons_of_mem _ hc)) hnodes.of_append_right
      ((passes_visit e p).ok hp) hone.numbered (hone.before hnodes hbefore))

theorem numbers_inside (he : (e.declares.map (·.id)).Nodup) (hn : p.Numbered) (hbefore : p.Before e.node?.toList) :
    Numbers e.node?.toList p (inside e p) := by
  have hdeclare : ∀ {q : CapturePass} {id : Nat}, q.out = p.out → e.node? = some id →
      Numbers e.node?.toList p (q.declareAll id e.declares) := by
    intro q id hout hid
    have hbefore : q.Before [id] := by
      unfold Before
      rw [hout]
      rw [hid] at hbefore
      exact hbefore
    obtain ⟨hall, hnew⟩ := numbered_declareAll he (p := q) (by unfold Numbered; rw [hout]; exact hn)
      fun hx hdecl _ => hbefore hx (hdecl ▸ mem_cons_self)
    refine ⟨hall, fun {i x} hx => (hnew hx).symm.imp (fun h => ?_) fun h => ⟨x, hout ▸ h, rfl⟩⟩
    rw [hid, h]
    exact mem_cons_self
  cases e with
  | lambda id name params body => exact hdeclare (q := { p.next with lambdas := _ }) rfl rfl
  | block id vars es => exact hdeclare (q := p.next) rfl rfl
  | _ => exact ⟨hn, fun {i x} hx => .inr ⟨x, hx, rfl⟩⟩

theorem numbers_visit (e : Expr) (he : e.Unshared) (hp : p.Ok) (hn : p.Numbered) (hbefore : p.Before e.nodes) :
    Numbers e.nodes p (visit U e p) := by
  induction e using childInduction generalizing p with
  | node e ih =>
    have hnodes := he.nodes
    rw [nodes_eq] at hnodes hbefore ⊢
    have hin := numbers_inside (he.vars .root) hn fun hx hmem => hbefore hx (mem_append_left _ hmem)
    have hok := (leads_inside e p).ok hp
    have hparts := hin.trans (numbers_visitAll_of (U := U) (fun c hc {_} => ih c hc (he.child hc))
      hnodes.of_append_right hok hin.numbered (hin.before hnodes hbefore))
    have hsettles := settles_outside (U := U) (e := e) (p := p) (visitAll U e.children (inside e p))
    have hgrows : Grows _ (outside U e p _) := grows_outside ((passes_visitAll (U := U) e.children _).ok hok)
    rw [visit_eq]
    refine ⟨Numbered.settles hparts.numbered hgrows hsettles, fun {i x} hx => ?_⟩
    have hlt := hsettles.size ▸ (Array.getElem?_eq_some_iff.1 hx).1
    obtain ⟨x', hx', hyx⟩ := hgrows.vars (Array.getElem?_eq_getElem hlt)
    obtain rfl : x' = x := Option.some.inj (hx'.symm.trans hx)
    rw [hyx.decl]
    exact hparts.new (Array.getElem?_eq_getElem hlt)

end CapturePass

namespace Captures

open CapturePass

variable {U : Universe} {root : Lambda} {inline : Bool} {p : CapturePass}

theorem of_lambda (hroot : root.toExpr.nodes.Nodup) {l : Lambda} (h : Visited U root l.toExpr p) :
    (analyze U root inline).of l.id = (l.toExpr.free.filterMap (p.visible.lookup ·)).eraseDups := by
  obtain ⟨hnodes, haround, hof⟩ := h.nodes hroot
  have hid : l.id ∈ l.toExpr.nodes := by
    rw [nodes_eq]
    exact mem_append_left _ mem_cons_self
  obtain ⟨hempty, hend⟩ := hof l.id hid
  have hbody : l.body.Apart (l.id :: p.around) := (apart_of_nodes hnodes haround).child mem_cons_self
  have hlink : ∀ x, (p.enterLambda l.id l.params).link l.id x =
      if x ∈ l.params.map (·.id) then none else p.visible.lookup x := fun x => by
    refine (link_declareAll (.enter h.owned.ok h.owned.owner l.id) l.id l.params x).trans ?_
    rw [link_enter h.owned (haround l.id hid), if_pos rfl]
  have haround' : (CapturePass.inside l.toExpr p).around = l.id :: p.around := around_inside l.toExpr p
  have hvisit := of_visit (U := U) (k := l.id) l.body hbody (fun _ hmem => haround' ▸ hmem) mem_cons_self
    (h.owned.inside l.toExpr)
  have hfree : l.toExpr.free = l.body.free.filter (· ∉ l.params.map (·.id)) := rfl
  rw [← foldl_note, hfree, filterMap_filter]
  refine (hend.trans hvisit).trans ?_
  rw [of_inside, hempty]
  congr 1
  refine filterMap_congr fun x _ => (hlink x).trans ?_
  split <;> simp_all

theorem number?_of_pass (inline : Bool) (hroot : root.toExpr.Unshared)
    (hx : (pass U root).out.vars[i]? = some x) : (analyze U root inline).number? x.decl x.var = some i :=
  (numbers_visit (U := U) root.toExpr hroot ok_empty (p := {}) nofun nofun).numbered hx

variable (U root inline) in
def declaration (i : Nat) : Declaration := ((analyze U root inline).vars.getD i default).declaration

theorem declaration_eq (hx : (pass U root).out.vars[i]? = some x) : declaration U root inline i = x.declaration := by
  obtain ⟨hvar, howner, hdecl⟩ := analyze_keeps inline hx
  rw [declaration, Variable.declaration, hvar, howner, hdecl]
  rfl

theorem declaration_injective (hroot : root.toExpr.Unshared) {j : Nat} {y : Variable}
    (hx : (pass U root).out.vars[i]? = some x) (hy : (pass U root).out.vars[j]? = some y)
    (h : declaration U root inline i = declaration U root inline j) : i = j := by
  rw [declaration_eq hx, declaration_eq hy, Variable.declaration, Variable.declaration, Declaration.mk.injEq] at h
  have hi := number?_of_pass inline hroot hx
  rw [h.2.1, h.2.2, number?_of_pass inline hroot hy] at hi
  exact (Option.some.inj hi).symm

theorem find?_eq {e : Expr} {scope : List Declaration} (h : Comes U root e p) (hshows : p.Shows scope) (x : Nat) :
    (p.visible.lookup x).map (declaration U root inline) = scope.find? (·.var.id = x) := by
  have hall : List.Forall₂ (fun b d => b.1 = d.var.id ∧ declaration U root inline b.2 = d) p.visible scope := by
    refine hshows.imp fun b d ⟨hid, y, hy, hd⟩ => ⟨hid, ?_⟩
    obtain ⟨z, hz, hyz⟩ := h.grows.vars hy
    rw [declaration_eq hz, ← hd, Variable.declaration, hyz.owner, hyz.decl, hyz.var]
    rfl
  clear hshows
  generalize p.visible = bs at hall
  induction hall with
  | nil => rfl
  | @cons b d bs ds hbd _ ih =>
    rw [lookup_cons, find?_cons, ← hbd.1]
    by_cases hx : x = b.1
    · simp [hx, hbd.2]
    · simp only [beq_false_of_ne hx, decide_eq_false (Ne.symm hx)]
      exact ih

/-- **The captured variables of a lambda** are the declarations that its free variables mean. -/
theorem declarations_of (inline : Bool) (hroot : root.toExpr.Unshared) {l : Lambda} {scope : List Declaration}
    (h : root.toExpr.At owner scope l.toExpr) :
    ((analyze U root inline).of l.id).map (declaration U root inline) = (l.toExpr.meant scope).eraseDups := by
  obtain ⟨p, hp, -, hshows⟩ := exists_comes (U := U) h
  have hmeant : (l.toExpr.free.filterMap (p.visible.lookup ·)).map (declaration U root inline) =
      l.toExpr.meant scope := by
    rw [map_filterMap]
    exact filterMap_congr fun x _ => find?_eq hp hshows x
  have hends := hp.grows
  rcases hp with hp | ⟨hl, rfl⟩
  · rw [of_lambda hroot.nodes hp, ← hmeant, eraseDups_map fun i hi j hj => ?_]
    obtain ⟨x, -, hx⟩ := mem_filterMap.1 hi
    obtain ⟨y, -, hy⟩ := mem_filterMap.1 hj
    obtain ⟨v, hv, -⟩ := hp.owned.ok.visible (Codegen.mem_of_lookup hx)
    obtain ⟨w, hw, -⟩ := hp.owned.ok.visible (Codegen.mem_of_lookup hy)
    obtain ⟨v', hv', -⟩ := hends.vars hv
    obtain ⟨w', hw', -⟩ := hends.vars hw
    exact declaration_injective hroot hv' hw'
  · have hid : l.id = root.id := by
      simp only [Lambda.toExpr, lambda.injEq] at hl
      exact hl.1
    rw [hid, of_root (apart_of_nodes hroot.nodes fun _ _ => not_mem_nil), ← hmeant]
    have hnone : (fun x => lookup x ({} : CapturePass).visible) = fun _ => none := rfl
    rw [hnone, filterMap_none]
    rfl

theorem exists_lambda (hroot : root.toExpr.Unshared) {k : Nat} (hi : i ∈ (pass U root).out.of k) :
    ∃ (l : Lambda) (owner : Nat) (scope : List Declaration), root.toExpr.At owner scope l.toExpr ∧ l.id = k := by
  have hparts : ∀ {e : Expr}, e.nodes.Nodup → (e.children.flatMap nodes).Nodup := fun h =>
    (nodes_eq _ ▸ h).of_append_right
  by_cases hk : k ∈ root.toExpr.nodes
  · obtain ⟨owner, scope, e, he, hnode⟩ := exists_node hk
    cases e with
    | lambda id name params body result type =>
      exact ⟨⟨id, name, params, body, result, type⟩, owner, scope, he, Option.some.inj hnode⟩
    | block id vars es =>
      obtain rfl := Option.some.inj hnode
      obtain ⟨p, hp | ⟨hp, -⟩, -⟩ := exists_comes (U := U) he
      · -- a block is no lambda, so what it has inside does not add to a list under its identity
        obtain ⟨hnodes, haround, hof⟩ := hp.nodes hroot.nodes
        have hid : id ∈ (block id vars es).nodes := by
          rw [nodes_eq]
          exact mem_append_left _ mem_cons_self
        have hother : id ∉ es.flatMap nodes :=
          disjoint_of_nodup_append (nodes_eq _ ▸ hnodes) mem_cons_self
        obtain ⟨hempty, hend⟩ := hof id hid
        have hskip := of_visitAll_other (U := U) (hparts hnodes) (around_parts hnodes haround) hother
          (around_inside (.block id vars es) p ▸ haround id hid) (hp.owned.inside (.block id vars es))
        have hnil : (pass U root).out.of id = [] :=
          hend.trans (hskip.trans ((of_inside id (.block id vars es) p).trans hempty))
        rw [hnil] at hi
        cases hi
      · cases hp
    | _ => cases hnode
  · have haround : (inside root.toExpr {}).around = [root.id] := around_inside root.toExpr {}
    have hid : k ≠ root.id := fun h => hk (by
      rw [nodes_eq]
      exact mem_append_left _ (h ▸ mem_cons_self))
    have hskip := of_visitAll_other (U := U) (k := k) (hparts hroot.nodes)
      (around_parts (p := {}) hroot.nodes fun _ _ => not_mem_nil)
      (fun h => hk (by rw [nodes_eq]; exact mem_append_right _ h)) (haround ▸ by simpa using hid)
      (Visited.body (U := U)).owned
    have hnil : (pass U root).out.of k = [] := hskip.trans (of_inside k root.toExpr {})
    rw [hnil] at hi
    cases hi

theorem modeOf_eq_none_iff (x : Variable) : modeOf inline x = .none ↔ ¬x.firstCapture.isSome := by
  unfold modeOf
  cases x.firstCapture with
  | none => simp
  | some a =>
    dsimp only
    split <;> simp

/-- **How closures see a variable**: not at all if and only if no lambda means it. -/
theorem mode_eq_none_iff (hroot : root.toExpr.Unshared) {e : Expr} {scope : List Declaration}
    (h : root.toExpr.At owner scope e) {d : Declaration} (hd : d ∈ e.declarations owner) :
    ∃ i, (analyze U root inline).number? d.decl d.var = some i ∧ declaration U root inline i = d ∧
      ((analyze U root inline).mode i = .none ↔ ∀ (owner' : Nat) (scope' : List Declaration) (l : Lambda),
        root.toExpr.At owner' scope' l.toExpr → d ∉ l.toExpr.meant scope') := by
  obtain ⟨p, hp, rfl, hshows⟩ := exists_comes (U := U) h
  obtain ⟨b, -, -, x, hx, hxd⟩ := exists_mem_of_forall₂ (hshows.inside e)
    (mem_append_left _ (mem_reverse.2 hd))
  obtain ⟨y, hy, hxy⟩ := hp.ends.2.vars hx
  have hyd : declaration U root inline b.2 = d := by
    rw [declaration_eq hy, ← hxd, Variable.declaration, hxy.owner, hxy.decl, hxy.var]
    rfl
  have hnumber := number?_of_pass inline hroot hy
  have hcurrent : (pass U root).out.isCurrent b.2 y = true := decide_eq_true hnumber
  refine ⟨b.2, ?_, hyd, ?_⟩
  · rw [← hyd, declaration_eq hy]
    exact hnumber
  · have hsome : y.firstCapture.isSome ↔ ∃ k, b.2 ∈ (pass U root).out.of k := by
      rw [(ok_pass U root).captured b.2]
      refine ⟨fun h => ⟨y, hy, h⟩, ?_⟩
      rintro ⟨z, hz, h⟩
      exact Option.some.inj (hz.symm.trans hy) ▸ h
    rw [mode, getD_analyze hy, if_pos hcurrent, modeOf_eq_none_iff, hsome]
    refine ⟨fun hnone owner' scope' l hl hmem => ?_, ?_⟩
    · have hmem := mem_eraseDups.2 hmem
      rw [← declarations_of (U := U) inline hroot hl] at hmem
      obtain ⟨j, hj, hjd⟩ := mem_map.1 hmem
      obtain ⟨z, hz, -⟩ := ((ok_pass U root).captured j).1 ⟨l.id, hj⟩
      exact hnone ⟨l.id, declaration_injective hroot hz hy (hjd.trans hyd.symm) ▸ hj⟩
    · rintro hnone ⟨k, hk⟩
      obtain ⟨l, owner', scope', hl, rfl⟩ := exists_lambda hroot hk
      refine hnone owner' scope' l hl (mem_eraseDups.1 ?_)
      rw [← declarations_of (U := U) inline hroot hl, ← hyd]
      exact mem_map_of_mem hk

end Captures

end TreeMachine
