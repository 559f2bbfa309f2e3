import TreeMachine.Proofs.Codegen.Nodes

/-!
# Code that branches

A conditional emits a jump that leads nowhere yet in front of each branch but the last and patches it
behind that branch. In between the jump is open: what it carries must agree with what is modeled where
it is patched. `runs_branchCode` says so once for conditionals and for the operators that need not
evaluate both operands: both branches leave as many entries, and the code as a whole leaves what the
second branch does.
-/

namespace TreeMachine.Codegen

variable {o : Nat} {op : Opcode} {t t' : Option Ty}

variable {r : Bool} {strict : Prop} {P : Bindings → Prop} {kind : Kind} {s s' : CodegenState} {u : Unit}
  {base before : List StackEntry} {caps : List Bool} {opened : List OpenJump} {known : SlotFacts} {reached : Bool}

/-! ## Open jumps -/

theorem Good.swap {j k : OpenJump} (h : Good r caps (j :: k :: opened) known reached s) :
    Good r caps (k :: j :: opened) known reached s := by
  have hsame : ∀ i, i ∈ j :: k :: opened ↔ i ∈ k :: j :: opened := fun i => by
    simp only [List.mem_cons]
    exact or_left_comm
  obtain ⟨G, hG⟩ := h.sound
  refine ⟨h.image, h.depths, G,
    { hG with
      jumps := fun hp hj => (hG.jumps hp hj).imp (fun ⟨j, hm, ho⟩ => ⟨j, (hsame j).1 hm, ho⟩) id
      opened := fun j hj => hG.opened j ((hsame j).2 hj) }⟩

theorem Good.emitJump {e : Effect} (hop : op = .jump ∨ op = .jumpIfFalse)
    (hg : Good r caps opened known true s) (he : Emitted op [o] [] e s s') :
    Good r caps (⟨s.function.chunk.code.size, s'.function.stack.depth, known⟩ :: opened) known
      (decide (op = .jumpIfFalse)) s' := by
  obtain ⟨G, hG⟩ := hg.sound
  have hjump : (nextPoint s.function known op [o] e).jumps = true := by
    rcases hop with rfl | rfl <;> rfl
  have hnew : Sound r caps (_ :: opened) known _ _ _ _ := hG.emit he.length he.effect he.push he.fits
    he.pop (valid_of_jumps hjump _ _) (if_pos hjump).symm
    (by rw [factsAfter_of_jumps hjump]; exact List.Subset.refl _) hG.known hG.env
  have hafter : (nextPoint s.function known op [o] e).after = s'.function.stack.depth := by
    rw [he.eq]
    show _ = (writeInstruction op [o] e.pop [] s.function).stack.depth
    rw [depth_writeInstruction he.pop, he.push]
    rfl
  have hfalls : (nextPoint s.function known op [o] e).falls = decide (op = .jumpIfFalse) := by
    rcases hop with rfl | rfl <;> rfl
  rw [hafter, hfalls, factsAfter_of_jumps hjump] at hnew
  rw [he.eq] at hnew ⊢
  exact ⟨hg.image, hg.depths, _, hnew⟩

theorem Good.restore {j : OpenJump} {es : Array StackEntry} (hg : Good r caps opened known false s)
    (hj : j ∈ opened) (hes : es.size = j.depth) : Good r caps opened known false
      { s with function := { s.function with stack := s.function.stack.restore es } } := by
  obtain ⟨G, hG⟩ := hg.sound
  obtain ⟨p, hp, hjump, hafter, -⟩ := hG.opened j hj
  have hle : p.after ≤ p.depth := by
    have heff := hG.effect hp
    have henough := hG.enough hp
    have hpush : p.effect.push = 0 := by
      unfold Point.jumps at hjump
      split at hjump
      · rename_i hop
        rw [hop] at heff
        rw [← Except.ok.inj heff]
      · rename_i hop
        rw [hop] at heff
        rw [← Except.ok.inj heff]
      · cases hjump
    simp only [Point.after, hpush]
    omega
  have hsize : s.function.chunk.code.size ≠ 0 := fun h0 => by
    have := hG.layout.lt hp
    omega
  refine ⟨hg.image, hg.depths, G, hG.change rfl rfl (.refl _) (.refl _) (.refl _) hG.slots ?_
    (Nat.le_refl _) ?_ (List.Subset.refl _) hG.known hG.env⟩
  · rintro (h | h)
    · cases h
    · exact absurd h hsize
  · show es.size ≤ s.function.stack.max
    have := hG.depth hp
    omega

theorem Good.patchJump {j : OpenJump} (hg : Good r caps (j :: opened) known reached s)
    (hdepth : s.function.stack.depth = j.depth) (hfacts : known ⊆ j.facts)
    (h : patchJump kind (j.offset + 1) s = .ok u s') : Good r caps opened known true s' := by
  obtain ⟨hle, rfl⟩ := patchJump_eq_ok h
  obtain ⟨G, hG⟩ := hg.sound
  exact ⟨hg.image, hg.depths, hG.patch hdepth hfacts hle⟩

theorem moved_patchJump (h : patchJump kind o s = .ok u s') (hok : s.function.slots.Ok) :
    Moved [] [] s s' := by
  obtain ⟨-, rfl⟩ := patchJump_eq_ok h
  exact ⟨hok, rfl, .refl _, .refl _, fun _ hb => hb⟩

/-! ## Two branches -/

theorem turned_branches {test : StackEntry} {first second : List StackEntry} {toElse toEnd : Nat}
    {s₁ s₂ s₃ s₄ s₅ s₆ : CodegenState} {v w : Unit} (hok : s.function.slots.Ok) (hlen : first.length = second.length)
    (hif : emitJump kind .jumpIfFalse s = .ok toElse s₁) (hfirst : Turned r [] first s₁ s₂)
    (hjump : emitJump kind .jump s₂ = .ok toEnd s₃) (hrestored : s₄ = { s₃ with
      function := { s₃.function with
        stack := s₃.function.stack.restore s₁.function.stack.entries } })
    (helse : patchJump kind toElse s₄ = .ok v s₅) (hsecond : Turned r [] second s₅ s₆)
    (hend : patchJump kind toEnd s₆ = .ok w s') : Turned r [test] second s s' := by
  obtain ⟨rfl, e, he⟩ := emitJump_eq_ok hif
  obtain ⟨rfl, e', he'⟩ := emitJump_eq_ok hjump
  have hpop : [test].length = e.pop := by
    rw [← Except.ok.inj he.effect]
    rfl
  have hpop' : ([] : List StackEntry).length = e'.pop := by
    rw [← Except.ok.inj he'.effect]
    rfl
  have h₁ : Moved [test] [] s s₁ := he.moved hok hpop
  have h₃ : Moved [] [] s₂ s₃ := he'.moved hfirst.ok hpop'
  have h₅ := moved_patchJump helse (hrestored ▸ h₃.ok)
  have h₇ := moved_patchJump hend hsecond.ok
  -- the second branch starts with the entries that the first one started with
  have hentries₅ : entries s₅ = entries s₁ := by
    rw [h₅.top, List.append_nil, hrestored]
    rfl
  have hmoved : Moved [test] second s s' := by
    refine ⟨h₇.ok, ?_, ?_, ?_, fun base hb => ?_⟩
    · rw [h₇.env, hsecond.env, h₅.env, hrestored]
      exact h₃.env.trans (hfirst.env.trans h₁.env)
    · have h₄ := h₅.slots
      rw [hrestored] at h₄
      exact ((h₁.slots.trans (hfirst.slots.trans h₃.slots)).trans h₄).trans
        (hsecond.slots.trans h₇.slots)
    · have h₄ := h₅.functions
      rw [hrestored] at h₄
      exact (h₇.functions.trans hsecond.functions).trans
        (h₄.trans (h₃.functions.trans (hfirst.functions.trans h₁.functions)))
    · rw [h₇.top, hsecond.top, hentries₅, h₁.entries base hb, List.append_nil, List.append_nil]
  refine ⟨hmoved, fun {caps opened known} hg => ?_⟩
  have hg₁ := hg.emitJump (.inr rfl) he
  have hg₃ := (hfirst.good hg₁).emitJump (.inl rfl) he'
  have hsize : s₁.function.stack.entries.size = s₁.function.stack.depth := rfl
  have hg₄ := hg₃.restore (List.mem_cons_of_mem _ List.mem_cons_self) hsize
  rw [← hrestored] at hg₄
  have hg₅ := hg₄.swap.patchJump (by rw [hrestored]; rfl) (List.Subset.refl _) helse
  refine (hsecond.good hg₅).patchJump ?_ (List.Subset.refl _) hend
  show s₆.function.stack.depth = s₃.function.stack.depth
  rw [depth_eq, depth_eq, hsecond.top, hentries₅, h₃.top, hfirst.top]
  simp [hlen]

theorem EntriesOf.length_eq {es es' : List StackEntry} (h : EntriesOf t es)
    (h' : EntriesOf t' es') (hvoid : t.isSome = t'.isSome) : es.length = es'.length := by
  cases t with
  | none =>
    cases t' with
    | none => rw [show es = [] from h, show es' = [] from h']
    | some t' => cases hvoid
  | some t =>
    cases t' with
    | none => cases hvoid
    | some t' =>
      obtain ⟨a, rfl⟩ := h
      obtain ⟨a', rfl⟩ := h'
      rfl

def branchCode {α : Type} (kind : Kind) (first : Codegen α) (second : Codegen Unit) : Codegen α := do
  let toElse ← emitJump kind .jumpIfFalse
  let before ← snapshot
  let a ← first
  let toEnd ← emitJump kind .jump
  restore before
  patchJump kind toElse
  second
  patchJump kind toEnd
  return a

theorem condCode_eq (void : Bool) (test ifTrue ifFalse : Codegen Unit) :
    condCode void test ifTrue ifFalse = (do
      test
      let first ← branchCode .conditional (do
        ifTrue
        if void then pure none else some <$> peek .conditional 0) ifFalse
      match first with
      | some e => join .conditional e
      | none => pure ()) := by
  cases void <;> simp [condCode, branchCode]

theorem logicalCode_eq (isAnd : Bool) (left right : Codegen Unit) :
    logicalCode isAnd left right = (do
      left
      branchCode .binary (if isAnd then right else emit .binary .pushTrue [] [owned .bool])
        (if isAnd then emit .binary .pushFalse [] [owned .bool] else right)
      replaceTop .binary (owned .bool)) := by
  cases isAnd <;> simp [logicalCode, branchCode]

theorem runs_emitJump {e : StackEntry}
    (hop : op = .jump ∧ before = [] ∨ op = .jumpIfFalse ∧ before = [e]) (hb : entries s = base ++ before) :
    Runs strict (emitJump kind op) s fun o s' => emitJump kind op s = .ok o s' := by
  refine .intro id fun _ => .of_runs (.bind_of_ok rfl (.bind (Q := fun _ _ => True) ?_ fun _ => trivial))
  refine .intro (fun _ => trivial) fun _ => ?_
  rcases hop with ⟨rfl, rfl⟩ | ⟨rfl, rfl⟩ <;> exact declines_emit hb rfl rfl

theorem runs_patchJump : Runs strict (patchJump kind o) s fun u s' => patchJump kind o s = .ok u s' :=
  .intro id fun _ => .of_runs (.bind_of_ok rfl (.ite (fun _ => .decline) fun _ => trivial))

theorem runs_branchCode {α : Type} {first : Codegen α} {second : Codegen Unit}
    {Q : α → Prop} {test : StackEntry} (hs : Ready strict P s) (hb : entries s = base ++ [test])
    (hfirst : ∀ {s : CodegenState}, Ready strict P s → Runs strict first s fun a s' =>
      Q a ∧ ∃ es, EntriesOf t es ∧ Turned r [] es s s') (hsecond : Yields r P t' second)
    (hvoid : t.isSome = t'.isSome) : Runs strict (branchCode kind first second) s fun a s' =>
      Q a ∧ ∃ es, EntriesOf t' es ∧ Turned r [test] es s s' := by
  refine .bind (runs_emitJump (.inr ⟨rfl, rfl⟩) hb) fun {toElse s₁} hif => .bind_of_ok rfl ?_
  obtain ⟨-, e, he⟩ := emitJump_eq_ok hif
  have hs₁ : Ready strict P s₁ := by
    rw [he.eq]
    exact ⟨hs.ok, hs.env⟩
  refine .bind (hfirst hs₁) fun {a s₂} ⟨hQ, es, hes, hrun⟩ => ?_
  refine .bind (runs_emitJump (e := default) (.inl ⟨rfl, rfl⟩) (List.append_nil _).symm) fun {toEnd s₃} hjump => ?_
  obtain ⟨-, e', he'⟩ := emitJump_eq_ok hjump
  have hs₃ : Ready strict P s₃ := by
    rw [he'.eq]
    exact ⟨hrun.ok, (hrun.ready hs₁).env⟩
  refine .modify_bind (.bind runs_patchJump fun {_ s₅} helse => ?_)
  have hs₅ : Ready strict P s₅ := (moved_patchJump helse hs₃.ok).ready ⟨hs₃.ok, hs₃.env⟩
  refine .bind (hsecond hs₅) fun {_ s₆} ⟨es', hes', hrun'⟩ => .bind runs_patchJump fun hend => ?_
  exact .pure ⟨hQ, es', hes', turned_branches hs.ok (hes.length_eq hes' hvoid) hif hrun hjump rfl helse hrun' hend⟩

theorem yields_condCode {c : Ty} {test ifTrue ifFalse : Codegen Unit}
    (hc : Yields r P (some c) test) (ha : Yields r P t ifTrue) (hb : Yields r P t ifFalse) :
    Yields r P t (condCode t.isNone test ifTrue ifFalse) := by
  intro strict s hs
  rw [condCode_eq]
  refine hc.then hs fun htest hs₁ => ?_
  refine .bind (runs_branchCode (Q := fun e => e.isSome = t.isSome) hs₁ htest.top (fun {s} hs => ?_) hb rfl)
    fun {first s₂} ⟨hsome, es, hes, hbranches⟩ => ?_
  · -- the entry of the first branch is looked at, if it leaves one
    cases t with
    | none => exact .bind (ha hs) fun h => .pure ⟨rfl, h⟩
    | some t =>
      refine ha.then hs fun {a _} hrun _ => ?_
      simp only [Option.isNone_some, Bool.false_eq_true, if_false, map_eq_pure_bind]
      exact .peekTop hrun.top (.pure ⟨rfl, _, ⟨a, rfl⟩, hrun⟩)
  · have hall := htest.trans hbranches
    split
    · obtain ⟨t', rfl⟩ := Option.isSome_iff_exists.1 hsome.symm
      obtain ⟨a, rfl⟩ := hes
      exact .peekTop hall.top (.imp (runs_replaceTop hall.ok hall.top) fun h => ⟨_, ⟨_, rfl⟩, hall.trans h⟩)
    · exact .pure ⟨es, hes, hall⟩

theorem yields_logicalCode {a b : Ty} {isAnd : Bool} {left right : Codegen Unit}
    (hl : Yields r P (some a) left) (hr : Yields r P (some b) right) :
    Yields r P (some .bool) (logicalCode isAnd left right) := by
  have hpush : ∀ op, op = .pushTrue ∨ op = .pushFalse →
      Yields r P (some .bool) (emit .binary op [] [owned .bool]) := fun op hop strict s hs => by
    rcases hop with rfl | rfl <;> exact .imp (runs_push hs.ok rfl rfl rfl) fun h => ⟨_, ⟨false, rfl⟩, h⟩
  intro strict s hs
  rw [logicalCode_eq]
  refine hl.then hs fun htest hs₁ => ?_
  -- each of the branches leaves a value of some type, whichever comes first
  obtain ⟨t, t', hfirst, hsecond⟩ : ∃ t t',
      Yields r P (some t) (if isAnd then right else emit .binary .pushTrue [] [owned .bool]) ∧
      Yields r P (some t') (if isAnd then emit .binary .pushFalse [] [owned .bool] else right) := by
    cases isAnd with
    | true => exact ⟨_, _, hr, hpush .pushFalse (.inr rfl)⟩
    | false => exact ⟨_, _, hpush .pushTrue (.inl rfl), hr⟩
  refine .bind (runs_branchCode (Q := fun _ => True) hs₁ htest.top
    (fun hs => .imp (hfirst hs) fun h => ⟨trivial, h⟩) hsecond rfl) fun {_ s₂} ⟨_, es, ⟨a', hes⟩, hrun⟩ => ?_
  subst hes
  have hall := htest.trans hrun
  exact .leaves (runs_replaceTop hall.ok hall.top) hall ⟨false, rfl⟩

end TreeMachine.Codegen
