import TreeMachine.Proofs.Machine.Calls

/-!
# Variables that are copied into closures

A variable is copied into closures only if the pass over the tree finds no write to it that comes after the
first closure over it. The pass takes assignments and the receivers of method calls for writes. It misses the
getters of properties, which are called on the storage of a variable just as methods are: one that changes its
receiver makes the copy in a closure differ from the variable (`Compiler.tally_copy`, `Compiler.tally_walk`).

* **`CapturePass.Leads`** says how the state of the pass changes.
* **`CapturePass.Visited`** names the places that the pass comes to, with its state there.
-/

namespace TreeMachine

theorem Expr.sizeOf_child {e c : Expr} (h : c ∈ e.children) : sizeOf c < sizeOf e := by
  cases e with
  | constant | var | hostVar | default | absent => cases h
  | callStatic _ es | new _ _ es | arrayOf _ es | block _ _ es =>
    have := List.sizeOf_lt_of_mem (show c ∈ es from h)
    simp
    omega
  | call _ _ es | apply _ es | init _ _ _ _ es =>
    rcases List.mem_cons.1 h with rfl | h
    · have : 0 < sizeOf es := by cases es <;> simp +arith
      simp
      omega
    · have := List.sizeOf_lt_of_mem h
      simp
      omega
  | member | convert | lambda | cond | binary | unary | assign | newArray | index | length =>
    simp only [children, List.mem_cons, List.not_mem_nil, or_false] at h
    simp
    grind

theorem Expr.childInduction {P : Expr → Prop} (node : ∀ e, (∀ c ∈ e.children, P c) → P e) (e : Expr) : P e :=
  node e fun c _ => childInduction node c
termination_by sizeOf e
decreasing_by exact Expr.sizeOf_child ‹_›

structure Variable.Before (x y : Variable) : Prop where
  var : y.var = x.var
  owner : y.owner = x.owner
  decl : y.decl = x.decl
  captured : ∀ a, x.firstCapture = some a → ∃ b ≤ a, y.firstCapture = some b
  written : ∀ a, x.lastWrite = some a → ∃ b ≥ a, y.lastWrite = some b
  nested : x.nestedWrite = true → y.nestedWrite = true

namespace Variable.Before

variable {x y z : Variable}

protected theorem refl (x : Variable) : x.Before x :=
  ⟨rfl, rfl, rfl, fun a h => ⟨a, Nat.le_refl a, h⟩, fun a h => ⟨a, Nat.le_refl a, h⟩, id⟩

protected theorem trans (h : x.Before y) (h' : y.Before z) : x.Before z where
  var := h'.var.trans h.var
  owner := h'.owner.trans h.owner
  decl := h'.decl.trans h.decl
  captured a ha := by
    obtain ⟨b, hb, hy⟩ := h.captured a ha
    obtain ⟨c, hc, hz⟩ := h'.captured b hy
    exact ⟨c, Nat.le_trans hc hb, hz⟩
  written a ha := by
    obtain ⟨b, hb, hy⟩ := h.written a ha
    obtain ⟨c, hc, hz⟩ := h'.written b hy
    exact ⟨c, Nat.le_trans hb hc, hz⟩
  nested hx := h'.nested (h.nested hx)

end Variable.Before

namespace CapturePass

/-! ## How the pass goes on -/

structure Ok (p : CapturePass) : Prop where
  vars : ∀ {i : Nat} {x : Variable}, p.out.vars[i]? = some x → x.mode = .none ∧ ∀ a, x.lastWrite = some a → a ≤ p.pos
  visible : ∀ {b : Nat × Nat}, b ∈ p.visible → ∃ x, p.out.vars[b.2]? = some x ∧ x.var.id = b.1
  decls : ∀ {d : (Nat × Nat) × Nat}, d ∈ p.out.decls →
    ∃ x, p.out.vars[d.2]? = some x ∧ x.decl = d.1.1 ∧ x.var.id = d.1.2
  captured : ∀ i, (∃ l, i ∈ p.out.of l) ↔ ∃ x, p.out.vars[i]? = some x ∧ x.firstCapture.isSome

structure Grows (p q : CapturePass) : Prop where
  pos : p.pos ≤ q.pos
  vars : ∀ {i : Nat} {x : Variable}, p.out.vars[i]? = some x → ∃ y, q.out.vars[i]? = some y ∧ x.Before y
  captured : ∀ {l i : Nat}, i ∈ p.out.of l → i ∈ q.out.of l

structure Leads (p q : CapturePass) : Prop where
  ok : p.Ok → q.Ok
  grows : p.Ok → Grows p q

structure Passes (p q : CapturePass) : Prop extends Leads p q where
  visible : q.visible = p.visible
  lambdas : q.lambdas = p.lambdas

variable {p q r : CapturePass} {i : Nat}

theorem ok_empty : ({} : CapturePass).Ok :=
  ⟨nofun, nofun, nofun, fun _ => ⟨fun ⟨_, h⟩ => absurd h List.not_mem_nil, nofun⟩⟩

theorem Ok.lt (hp : p.Ok) {b : Nat × Nat} (hb : b ∈ p.visible) : b.2 < p.out.vars.size := by
  obtain ⟨x, hx, -⟩ := hp.visible hb
  exact (Array.getElem?_eq_some_iff.1 hx).1

namespace Grows

theorem of_captured_eq (hpos : p.pos ≤ q.pos) (hvars : ∀ {i : Nat} {x : Variable}, p.out.vars[i]? = some x →
    ∃ y, q.out.vars[i]? = some y ∧ x.Before y) (h : q.out.captured = p.out.captured) : Grows p q where
  pos := hpos
  vars := hvars
  captured hi := by
    rw [Captures.of, h]
    exact hi

protected theorem refl (p : CapturePass) : Grows p p :=
  .of_captured_eq (Nat.le_refl _) (fun {_ x} hx => ⟨x, hx, .refl x⟩) rfl

protected theorem trans (h : Grows p q) (h' : Grows q r) : Grows p r where
  pos := Nat.le_trans h.pos h'.pos
  vars hx := by
    obtain ⟨y, hy, hxy⟩ := h.vars hx
    obtain ⟨z, hz, hyz⟩ := h'.vars hy
    exact ⟨z, hz, hxy.trans hyz⟩
  captured hi := h'.captured (h.captured hi)

theorem size_le (h : Grows p q) : p.out.vars.size ≤ q.out.vars.size := by
  by_contra hlt
  have hlast : q.out.vars.size < p.out.vars.size := Nat.lt_of_not_le hlt
  obtain ⟨y, hy, -⟩ := h.vars (Array.getElem?_eq_getElem hlast)
  simp at hy

end Grows

namespace Leads

protected theorem refl (p : CapturePass) : Leads p p := ⟨id, fun _ => .refl p⟩

protected theorem trans (h : Leads p q) (h' : Leads q r) : Leads p r :=
  ⟨fun hp => h'.ok (h.ok hp), fun hp => (h.grows hp).trans (h'.grows (h.ok hp))⟩

end Leads

namespace Passes

protected theorem refl (p : CapturePass) : Passes p p := ⟨.refl p, rfl, rfl⟩

protected theorem trans (h : Passes p q) (h' : Passes q r) : Passes p r :=
  ⟨h.toLeads.trans h'.toLeads, h'.visible.trans h.visible, h'.lambdas.trans h.lambdas⟩

theorem of_modify {o : Captures} {f : Variable → Variable} (hvars : o.vars = p.out.vars.modify i f)
    (hdecls : o.decls = p.out.decls) (hof : ∀ {l j : Nat}, j ∈ p.out.of l → j ∈ o.of l)
    (hf : ∀ x, x.mode = .none → (∀ a, x.lastWrite = some a → a ≤ p.pos) →
      x.Before (f x) ∧ (f x).mode = .none ∧ ∀ a, (f x).lastWrite = some a → a ≤ p.pos)
    (hcaptured : p.Ok → ∀ j, (∃ l, j ∈ o.of l) ↔ ∃ x, o.vars[j]? = some x ∧ x.firstCapture.isSome) :
    Passes p { p with out := o } := by
  have hgrows : ∀ {j : Nat} {x : Variable}, p.Ok → p.out.vars[j]? = some x → ∃ y, o.vars[j]? = some y ∧ x.Before y := by
    intro j x hp hx
    rw [hvars, Array.getElem?_modify]
    split
    · exact ⟨f x, by rw [hx]; rfl, (hf x (hp.vars hx).1 (hp.vars hx).2).1⟩
    · exact ⟨x, hx, .refl x⟩
  refine ⟨⟨fun hp => ⟨fun {j x} hx => ?_, fun hb => ?_, fun {d} hd => ?_, hcaptured hp⟩, fun hp => ?_⟩, rfl, rfl⟩
  · have hx : o.vars[j]? = some x := hx
    rw [hvars, Array.getElem?_modify] at hx
    split at hx
    · obtain ⟨y, hy, rfl⟩ := Option.map_eq_some_iff.1 hx
      exact (hf y (hp.vars hy).1 (hp.vars hy).2).2
    · exact hp.vars hx
  · obtain ⟨x, hx, hid⟩ := hp.visible hb
    obtain ⟨y, hy, hxy⟩ := hgrows hp hx
    exact ⟨y, hy, by rw [hxy.var, hid]⟩
  · have hd : d ∈ o.decls := hd
    obtain ⟨x, hx, hdecl, hid⟩ := hp.decls (hdecls ▸ hd)
    obtain ⟨y, hy, hxy⟩ := hgrows hp hx
    exact ⟨y, hy, by rw [hxy.decl, hdecl], by rw [hxy.var, hid]⟩
  · exact ⟨Nat.le_refl _, fun hx => hgrows hp hx, hof⟩

end Passes

theorem passes_next (p : CapturePass) : Passes p p.next where
  ok hp :=
    { vars := fun hx => ⟨(hp.vars hx).1, fun a ha => Nat.le_succ_of_le ((hp.vars hx).2 a ha)⟩
      visible := hp.visible
      decls := hp.decls
      captured := hp.captured }
  grows _ := .of_captured_eq (Nat.le_succ _) (fun {_ x} hx => ⟨x, hx, .refl x⟩) rfl
  visible := rfl
  lambdas := rfl

theorem passes_modifyVariable {f : Variable → Variable} (hfirst : ∀ x, (f x).firstCapture = x.firstCapture)
    (hf : ∀ x, x.mode = .none → (∀ a, x.lastWrite = some a → a ≤ p.pos) →
      x.Before (f x) ∧ (f x).mode = .none ∧ ∀ a, (f x).lastWrite = some a → a ≤ p.pos) :
    Passes p (p.modifyVariable i f) := by
  refine .of_modify (o := (p.modifyVariable i f).out) rfl rfl id hf fun hp j => (hp.captured j).trans ?_
  rw [modifyVariable, Array.getElem?_modify]
  split
  · cases p.out.vars[j]? <;> simp [hfirst]
  · rfl

theorem getElem?_declare (decl : Nat) (p : CapturePass) (v : Var) {x : Variable} :
    (declare decl p v).out.vars[i]? = some x ↔ p.out.vars[i]? = some x ∨
      i = p.out.vars.size ∧ x = { var := v, owner := p.current, decl := decl } := by
  simp only [declare, Array.getElem?_push]
  split
  · rename_i hi
    subst hi
    simp [eq_comm]
  · simp [*]

theorem leads_declare (decl : Nat) (p : CapturePass) (v : Var) : Leads p (declare decl p v) := by
  have hold : ∀ {i : Nat} {x : Variable}, p.out.vars[i]? = some x →
      (declare decl p v).out.vars[i]? = some x := fun hx => (getElem?_declare decl p v).2 (.inl hx)
  have hnew := (getElem?_declare decl p v).2 (.inr ⟨rfl, rfl⟩)
  refine ⟨fun hp => ⟨fun {i x} hx => ?_, fun {b} hb => ?_, fun {d} hd => ?_, fun i => ?_⟩, fun _ => ?_⟩
  · rcases (getElem?_declare decl p v).1 hx with hx | ⟨-, rfl⟩
    · exact hp.vars hx
    · exact ⟨rfl, nofun⟩
  · rcases List.mem_cons.1 hb with rfl | hb
    · exact ⟨_, hnew, rfl⟩
    · obtain ⟨x, hx, hid⟩ := hp.visible hb
      exact ⟨x, hold hx, hid⟩
  · rcases List.mem_cons.1 hd with rfl | hd
    · exact ⟨_, hnew, rfl, rfl⟩
    · obtain ⟨x, hx, hx'⟩ := hp.decls (List.mem_filter.1 hd).1
      exact ⟨x, hold hx, hx'⟩
  · refine (hp.captured i).trans ⟨fun ⟨x, hx, hfirst⟩ => ⟨x, hold hx, hfirst⟩, fun ⟨x, hx, hfirst⟩ => ?_⟩
    rcases (getElem?_declare decl p v).1 hx with hx | ⟨-, rfl⟩
    · exact ⟨x, hx, hfirst⟩
    · cases hfirst
  · exact .of_captured_eq (Nat.le_refl _) (fun {_ x} hx => ⟨x, hold hx, .refl x⟩) rfl

theorem leads_declareAll (p : CapturePass) (decl : Nat) (vs : List Var) : Leads p (p.declareAll decl vs) := by
  induction vs generalizing p with
  | nil => exact .refl p
  | cons v vs ih => exact (leads_declare decl p v).trans (ih _)

theorem lambdas_declareAll (p : CapturePass) (decl : Nat) (vs : List Var) :
    (p.declareAll decl vs).lambdas = p.lambdas := by
  induction vs generalizing p with
  | nil => rfl
  | cons v vs ih => exact ih _

def note (ns : List Nat) (n : Nat) : List Nat := if n ∈ ns then ns else ns ++ [n]

theorem mem_note {ns : List Nat} {j : Nat} : j ∈ note ns i ↔ j ∈ ns ∨ j = i := by
  unfold note
  split
  · exact ⟨.inl, fun h => h.elim id fun h => h ▸ ‹_›⟩
  · simp

theorem of_capture (i : Nat) (p : CapturePass) (l : Nat × Nat) (k : Nat) :
    (capture i p l).out.of k = if k = l.1 then note (p.out.of k) i else p.out.of k := by
  by_cases h : (p.out.of l.1).contains i = true
  · rw [capture, if_pos h]
    by_cases hk : k = l.1
    · rw [if_pos hk, hk, note, if_pos (by simpa using h)]
      rfl
    · rw [if_neg hk]
      rfl
  · rw [capture, if_neg h]
    show ((Captures.insert l.1 (p.out.of l.1 ++ [i]) p.out.captured).lookup k).getD [] = _
    rw [Captures.insert, lookup_replace]
    by_cases hk : k = l.1
    · rw [if_pos hk, if_pos hk, hk, note, if_neg (by simpa using h)]
      rfl
    · rw [if_neg hk, if_neg hk]
      rfl

def takenAt (a : Nat) (x : Variable) : Variable :=
  { x with firstCapture := some ((x.firstCapture.map fun b => if a < b then a else b).getD a) }

theorem vars_capture (i : Nat) (p : CapturePass) (l : Nat × Nat) :
    (capture i p l).out.vars = p.out.vars.modify i (takenAt l.2) ∧ (capture i p l).out.decls = p.out.decls := by
  have hmodify : ∀ {f}, (∀ x, takenAt l.2 x = f x) → p.out.vars.modify i f = p.out.vars.modify i (takenAt l.2) :=
    fun hf => by rw [funext hf]
  simp only [capture, modifyVariable]
  split <;> exact ⟨hmodify fun x => by unfold takenAt; cases x.firstCapture <;> rfl, rfl⟩

theorem exists_firstCapture (a : Nat) (x : Variable) : ∃ b ≤ a, (takenAt a x).firstCapture = some b := by
  unfold takenAt
  cases x.firstCapture with
  | none => exact ⟨a, Nat.le_refl a, rfl⟩
  | some b => exact ⟨if a < b then a else b, by split <;> omega, rfl⟩

theorem passes_capture (hi : i < p.out.vars.size) (l : Nat × Nat) : Passes p (capture i p l) := by
  have hof := of_capture i p l
  obtain ⟨hvars, hdecls⟩ := vars_capture i p l
  refine .of_modify (o := (capture i p l).out) hvars hdecls (fun {k j} hj => ?_) (fun x hmode hwrite => ?_)
    fun hp j => ?_
  · rw [hof]
    split
    · exact mem_note.2 (.inl hj)
    · exact hj
  · refine ⟨⟨rfl, rfl, rfl, fun a ha => ?_, fun a ha => ⟨a, Nat.le_refl a, ha⟩, id⟩, hmode, hwrite⟩
    unfold takenAt
    rw [ha]
    exact ⟨_, by simp only [Option.map_some, Option.getD_some]; split <;> omega, rfl⟩
  · rw [hvars, Array.getElem?_modify]
    by_cases hij : i = j
    · subst hij
      obtain ⟨b, -, hb⟩ := exists_firstCapture l.2 p.out.vars[i]
      refine ⟨fun _ => ⟨takenAt l.2 p.out.vars[i], by simp [hi], by rw [hb]; rfl⟩, fun _ => ⟨l.1, ?_⟩⟩
      rw [hof, if_pos rfl]
      exact mem_note.2 (.inr rfl)
    · rw [if_neg hij, ← hp.captured j]
      refine exists_congr fun k => ?_
      rw [hof]
      split
      · exact mem_note.trans (or_iff_left (Ne.symm hij))
      · rfl

theorem passes_captures (hi : i < p.out.vars.size) (ls : List (Nat × Nat)) : Passes p (ls.foldl (capture i) p) := by
  induction ls generalizing p with
  | nil => exact .refl p
  | cons l ls ih =>
    refine (passes_capture hi l).trans (ih ?_)
    rw [(vars_capture i p l).1, Array.size_modify]
    exact hi

theorem scope_captures (i : Nat) (p : CapturePass) (ls : List (Nat × Nat)) :
    (ls.foldl (capture i) p).visible = p.visible ∧ (ls.foldl (capture i) p).lambdas = p.lambdas := by
  induction ls generalizing p with
  | nil => exact ⟨rfl, rfl⟩
  | cons l ls ih => exact ih (capture i p l)

theorem passes_reference (p : CapturePass) (v : Var) : Passes p (p.reference v) := by
  unfold reference
  cases hv : p.visible.lookup v.id with
  | none => exact ⟨⟨fun hp => ⟨hp.vars, hp.visible, hp.decls, hp.captured⟩,
      fun _ => .of_captured_eq (Nat.le_refl _) (fun {_ x} hx => ⟨x, hx, .refl x⟩) rfl⟩, rfl, rfl⟩
  | some i =>
    have hpass (ls : List (Nat × Nat)) (hp : p.Ok) : Passes p (ls.foldl (capture i) p) :=
      passes_captures (hp.lt (Codegen.mem_of_lookup hv)) ls
    obtain ⟨hvisible, hlambdas⟩ := scope_captures i p _
    exact ⟨⟨fun hp => (hpass _ hp).ok hp, fun hp => (hpass _ hp).grows hp⟩, hvisible, hlambdas⟩

theorem passes_write (p : CapturePass) (v : Option Var) : Passes p (p.write v) := by
  unfold write
  split
  · exact .refl p
  · split
    · exact passes_modifyVariable (fun _ => rfl) fun x hmode hwrite =>
        ⟨⟨rfl, rfl, rfl, fun a ha => ⟨a, Nat.le_refl a, ha⟩, fun a ha => ⟨a, Nat.le_refl a, ha⟩, fun _ => rfl⟩,
          hmode, hwrite⟩
    · refine (passes_next p).trans (passes_modifyVariable (fun _ => rfl) fun x hmode hwrite => ?_)
      refine ⟨⟨rfl, rfl, rfl, fun a ha => ⟨a, Nat.le_refl a, ha⟩, fun a ha => ?_, id⟩, hmode, fun a ha => ?_⟩
      · exact ⟨p.next.pos, hwrite a ha, rfl⟩
      · cases ha
        exact Nat.le_refl _

theorem passes_writeReceiver (U : Universe) (p : CapturePass) (o : Expr) : Passes p (p.writeReceiver U o) := by
  unfold writeReceiver
  split
  · exact passes_write p _
  · exact .refl p

theorem Leads.back (h : Leads p q) : Leads p { q with visible := p.visible, lambdas := p.lambdas } where
  ok hp :=
    { vars := (h.ok hp).vars
      visible := fun hb => by
        obtain ⟨x, hx, hid⟩ := hp.visible hb
        obtain ⟨y, hy, hxy⟩ := (h.grows hp).vars hx
        exact ⟨y, hy, by rw [hxy.var, hid]⟩
      decls := (h.ok hp).decls
      captured := (h.ok hp).captured }
  grows hp := ⟨(h.grows hp).pos, (h.grows hp).vars, (h.grows hp).captured⟩

theorem leads_enterLambda (p : CapturePass) (id : Nat) (params : List Var) : Leads p (p.enterLambda id params) := by
  have henter : Leads p { p.next with lambdas := (id, p.next.pos) :: p.next.lambdas } :=
    ⟨fun hp => ⟨((passes_next p).ok hp).vars, hp.visible, hp.decls, hp.captured⟩,
      fun _ => .of_captured_eq (Nat.le_succ _) (fun {_ x} hx => ⟨x, hx, .refl x⟩) rfl⟩
  exact henter.trans (leads_declareAll _ _ _)

/-! ## Visiting a tree -/

section

variable {U : Universe} {c e : Expr} {v : Var} {i : Nat}

/-- The state in which the pass comes to the first part of an expression. -/
def inside : Expr → CapturePass → CapturePass
  | .lambda id _ params _ _ _, p => p.enterLambda id params
  | .block id vars _, p => p.next.declareAll id vars
  | _, p => p.next

variable (U) in
/-- What the pass does once it is through with the parts of an expression, which it came to in state `p`. -/
def outside : Expr → CapturePass → CapturePass → CapturePass
  | .var v, _, q => q.reference v
  | .call o _ _, _, q => q.writeReceiver U o
  | .assign target _, _, q => q.write (writeRoot U target)
  | .lambda .., p, q => q.leaveLambda p.visible
  | .block .., p, q => q.leave p.visible
  | _, _, q => q

/-- Every node is visited alike: what comes before its parts, the parts in order, and what comes behind them. -/
theorem visit_eq (e : Expr) (p : CapturePass) : visit U e p = outside U e p (visitAll U e.children (inside e p)) := by
  cases e <;> rfl

theorem leads_inside (e : Expr) (p : CapturePass) : Leads p (inside e p) := by
  cases e with
  | lambda id name params body => exact leads_enterLambda p id params
  | block id vars es => exact (passes_next p).toLeads.trans (leads_declareAll _ id vars)
  | _ => exact (passes_next p).toLeads

theorem passes_outside (h : Passes (inside e p) q) : Passes p (outside U e p q) := by
  have hleads := (leads_inside e p).trans h.toLeads
  have hback : ∀ ls, ls = p.lambdas → Passes p { q with visible := p.visible, lambdas := ls } :=
    fun ls hls => ⟨hls ▸ hleads.back, rfl, hls⟩
  cases e with
  | lambda id name params body =>
    refine hback q.lambdas.tail ?_
    rw [h.lambdas, inside, enterLambda, lambdas_declareAll]
    rfl
  | block id vars es =>
    refine hback q.lambdas ?_
    rw [h.lambdas, inside, lambdas_declareAll]
    rfl
  | var v => exact ((passes_next p).trans h).trans (passes_reference q v)
  | call o m args => exact ((passes_next p).trans h).trans (passes_writeReceiver U q o)
  | assign target value => exact ((passes_next p).trans h).trans (passes_write q _)
  | _ => exact (passes_next p).trans h

theorem grows_outside (hq : q.Ok) : Grows q (outside U e p q) := by
  cases e with
  | lambda | block => exact .of_captured_eq (Nat.le_refl _) (fun {_ x} hx => ⟨x, hx, .refl x⟩) rfl
  | var v => exact (passes_reference q v).grows hq
  | call o m args => exact (passes_writeReceiver U q o).grows hq
  | assign target value => exact (passes_write q _).grows hq
  | _ => exact .refl q

theorem passes_visitAll_of {es : List Expr} (h : ∀ c ∈ es, ∀ p, Passes p (visit U c p)) (p : CapturePass) :
    Passes p (visitAll U es p) := by
  induction es generalizing p with
  | nil => exact .refl p
  | cons e es ih =>
    exact (h e List.mem_cons_self p).trans (ih (fun c hc => h c (List.mem_cons_of_mem _ hc)) _)

theorem passes_visit (e : Expr) (p : CapturePass) : Passes p (visit U e p) := by
  induction e using Expr.childInduction generalizing p with
  | node e ih =>
    rw [visit_eq]
    exact passes_outside (passes_visitAll_of ih _)

theorem passes_visitAll (es : List Expr) (p : CapturePass) : Passes p (visitAll U es p) :=
  passes_visitAll_of (fun c _ => passes_visit c) p

variable (U) in
def stopsAll : List Expr → CapturePass → List (Expr × CapturePass)
  | [], _ => []
  | e :: es, p => (e, p) :: stopsAll es (visit U e p)

variable (U) in
def stops (e : Expr) (p : CapturePass) : List (Expr × CapturePass) := stopsAll U e.children (inside e p)

theorem passes_stopsAll {es : List Expr} (h : (c, q) ∈ stopsAll U es p) :
    Passes p q ∧ Leads (visit U c q) (visitAll U es p) := by
  induction es generalizing p with
  | nil => cases h
  | cons e es ih =>
    rcases List.mem_cons.1 h with h | h
    · cases h
      exact ⟨.refl _, (passes_visitAll es _).toLeads⟩
    · exact ⟨(passes_visit e p).trans (ih h).1, (ih h).2⟩

/-- The pass comes to a part after the whole is begun, and is done with it before the whole is done. -/
theorem passes_stops (h : (c, q) ∈ stops U e p) :
    Passes (inside e p) q ∧ (q.Ok → Grows (visit U c q) (visit U e p)) := by
  obtain ⟨hpass, hleads⟩ := passes_stopsAll h
  refine ⟨hpass, fun hq => ?_⟩
  have hc := (passes_visit (U := U) c q).ok hq
  rw [visit_eq e]
  exact (hleads.grows hc).trans (grows_outside (hleads.ok hc))

variable (U) in
/-- The variable whose storage a node itself writes: an assignment that of its target, the call of a method that
of its receiver. -/
def written? : Expr → Option Var
  | .assign target _ => writeRoot U target
  | .call o _ _ => if o.type.any U.isAggregate then writeRoot U o else none
  | _ => none

theorem visit_of_written (h : written? U e = some v) (p : CapturePass) :
    ∃ q, Passes p q ∧ visit U e p = q.write (some v) := by
  have hparts := passes_visitAll (U := U) e.children (inside e p)
  cases e with
  | assign target value => exact ⟨_, (passes_next p).trans hparts, by rw [← h]; rfl⟩
  | call o m args =>
    refine ⟨_, (passes_next p).trans hparts, ?_⟩
    rw [written?] at h
    split at h
    · rw [← h, visit_eq, outside, writeReceiver, if_pos ‹_›]
    · cases h
  | _ => cases h

theorem write_recorded (hp : p.Ok) (hi : p.visible.lookup v.id = some i) :
    ∃ x, (p.write (some v)).out.vars[i]? = some x ∧
      (x.nestedWrite = true ∨ x.owner = p.current ∧ x.lastWrite = some (p.write (some v)).pos) := by
  have hlt : i < p.out.vars.size := hp.lt (Codegen.mem_of_lookup hi)
  have hx : p.out.vars[i]? = some p.out.vars[i] := Array.getElem?_eq_getElem hlt
  have howner : (p.out.vars.getD i default).owner = p.out.vars[i].owner := by
    rw [Array.getD_eq_getD_getElem?, hx]
    rfl
  simp only [write, Option.bind_some, hi, howner, bne_iff_ne, ne_eq]
  split
  · exact ⟨_, by rw [modifyVariable, Array.getElem?_modify, if_pos rfl, hx]; rfl, .inl rfl⟩
  · refine ⟨{ p.out.vars[i] with lastWrite := some p.next.pos }, ?_, .inr ⟨not_not.1 ‹_›, rfl⟩⟩
    rw [modifyVariable, Array.getElem?_modify, if_pos rfl]
    show (p.out.vars[i]?).map _ = _
    rw [hx]
    rfl

theorem capture_recorded (hi : i < p.out.vars.size) (l : Nat × Nat) :
    ∃ x, (capture i p l).out.vars[i]? = some x ∧ ∃ a ≤ l.2, x.firstCapture = some a :=
  ⟨takenAt l.2 p.out.vars[i], by rw [(vars_capture i p l).1, Array.getElem?_modify]; simp [hi],
    exists_firstCapture l.2 p.out.vars[i]⟩

theorem reference_recorded (hp : p.Ok) (hi : p.visible.lookup v.id = some i) {x : Variable}
    (hx : p.out.vars[i]? = some x) {l : Nat × Nat} (hl : l ∈ p.lambdas.takeWhile (·.1 != x.owner)) :
    ∃ x, (p.reference v).out.vars[i]? = some x ∧ ∃ a ≤ l.2, x.firstCapture = some a := by
  have hlt : i < p.out.vars.size := (Array.getElem?_eq_some_iff.1 hx).1
  simp only [reference, hi, Array.getD_eq_getD_getElem?, hx, Option.getD_some]
  generalize p.lambdas.takeWhile _ = ls at hl
  clear hi hx
  induction ls generalizing p with
  | nil => cases hl
  | cons k ls ih =>
    have hk := passes_capture hlt k
    rcases List.mem_cons.1 hl with rfl | hl
    · -- this lambda is taken in now, and the later ones only lower the position
      obtain ⟨x, hx, a, ha, hfirst⟩ := capture_recorded hlt l
      obtain ⟨y, hy, hxy⟩ :=
        ((passes_captures (Nat.lt_of_lt_of_le hlt (hk.grows hp).size_le) ls).grows (hk.ok hp)).vars hx
      obtain ⟨b, hb, hfirst⟩ := hxy.captured a hfirst
      exact ⟨y, hy, b, Nat.le_trans hb ha, hfirst⟩
    · exact ih (hk.ok hp) (Nat.lt_of_lt_of_le hlt (hk.grows hp).size_le) hl

variable (U) in
inductive Visited (root : Lambda) : Expr → CapturePass → Prop
  | body : Visited root root.body (({} : CapturePass).enterLambda root.id root.params)
  | part {e c : Expr} {p q : CapturePass} : Visited root e p → (c, q) ∈ stops U e p → Visited root c q

theorem Visited.ends {root : Lambda} (h : Visited U root e p) : p.Ok ∧ Grows (visit U e p)
      (visit U root.body (({} : CapturePass).enterLambda root.id root.params)) := by
  induction h with
  | body => exact ⟨(leads_enterLambda {} _ _).ok ok_empty, .refl _⟩
  | part _ hstop ih =>
    obtain ⟨hpass, hpart⟩ := passes_stops hstop
    have hok := hpass.ok ((leads_inside _ _).ok ih.1)
    exact ⟨hok, (hpart hok).trans ih.2⟩

end

end CapturePass

/-! ## A getter that counts -/

namespace Compiler

/-- A struct with a number, and with a property whose getter adds one to it; and the type of a function that
gives a number. -/
def tallyTypes : Universe :=
  match Universe.declare {} ⟨"S", .struct,
    [.field "n" (some .int32), .property "P" (some .int32) (some 0) none]⟩ with
  | .ok (_, U) => (U.delegate [] (some .int32)).2
  | .error _ => {}

def tallyHost : Host := { types := tallyTypes, routines := #[(Script.inc "n").routine] }

/-- A function that makes a closure over a struct, asks for the property of the struct, and calls the closure,
which reads the number. -/
def tally : Lambda :=
  let s : Var := ⟨1, "s", .declared 0⟩
  let f : Var := ⟨2, "f", .declared 1⟩
  let number : Field := ⟨"n", .int32, .declared 0, 0⟩
  let getter : Method :=
    { owner := .declared 0, serial := 0, name := "get_P", result := some .int32, body := some (.host 0) }
  { id := 4
    name := "tally"
    params := []
    body := .block 5 [s, f] [
      .assign (.var f) (.lambda 3 "" [] (.member (.var s) (.field number)) (some .int32) (.declared 1)),
      .member (.var s) (.property ⟨"P", some .int32, .declared 0, getter, none⟩),
      .apply (.var f) [] (some .int32)]
    result := some .int32
    type := .declared 1 }

theorem tallyTypes_declared : tallyTypes.Declared := by
  unfold tallyTypes
  split
  · rename_i h
    exact .delegate _ _ (.declare .empty h)
  · exact .empty

theorem tally_checked : tally.toExpr.Checked tallyTypes := Expr.checked_of_within 6 (by decide +kernel)

def answer? (x : Exec Value) : Option Value :=
  match x {} with
  | .ok v _ => some v
  | .error _ _ => none

theorem tally_runs (inline : Bool) : ∃ a,
    compile tallyTypes { inlineCaptures := inline } (some tally) ⟨[], some .int32⟩ = .ok a ∧
    answer? (a.call tallyHost (callDelegate tallyHost reentry) []) = some (.ofInt32 (if inline then 0 else 1)) := by
  refine Except.exists_ok_of_map
    (g := fun a : Artifact => answer? (a.call tallyHost (callDelegate tallyHost reentry) [])) ?_
  revert inline
  decide +kernel

/-- **A copied variable that changes**: the closure of the tally reads an old number, unless captured variables are
shared. -/
theorem tally_copy : tallyTypes.Declared ∧ tally.toExpr.Checked tallyTypes ∧ ∃ a b,
    compile tallyTypes {} (some tally) ⟨[], some .int32⟩ = .ok a ∧
    compile tallyTypes { inlineCaptures := false } (some tally) ⟨[], some .int32⟩ = .ok b ∧
    answer? (a.call tallyHost (callDelegate tallyHost reentry) []) = some (.ofInt32 0) ∧
    answer? (b.call tallyHost (callDelegate tallyHost reentry) []) = some (.ofInt32 1) := by
  obtain ⟨a, ha, hanswer⟩ := tally_runs true
  obtain ⟨b, hb, hanswer'⟩ := tally_runs false
  exact ⟨tallyTypes_declared, tally_checked, a, b, ha, hb, hanswer, hanswer'⟩

/-- **The machine and the evaluation of the tree disagree** about the tally. -/
theorem tally_walk : tallyTypes.Declared ∧ tally.toExpr.Checked tallyTypes ∧ ∃ a p,
    compile tallyTypes {} (some tally) ⟨[], some .int32⟩ = .ok a ∧
    Program.bind tallyTypes (some tally) ⟨[], some .int32⟩ Machine.maxCallDepth = .ok p ∧
    answer? (a.call tallyHost (callDelegate tallyHost reentry) []) = some (.ofInt32 0) ∧
    answer? (p.call tallyHost (callDelegate tallyHost reentry) []) = some (.ofInt32 1) := by
  have hwalk : (Program.bind tallyTypes (some tally) ⟨[], some .int32⟩
      Machine.maxCallDepth).toOption.map
        (fun p => answer? (p.call tallyHost (callDelegate tallyHost reentry) [])) =
      some (some (.ofInt32 1)) := by decide +kernel
  obtain ⟨a, ha, hanswer⟩ := tally_runs true
  obtain ⟨p, hp, hanswer'⟩ := Except.exists_ok_of_map hwalk
  exact ⟨tallyTypes_declared, tally_checked, a, p, ha, hp, hanswer, hanswer'⟩

end Compiler

end TreeMachine
