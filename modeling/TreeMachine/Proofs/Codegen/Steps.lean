import TreeMachine.Codegen.Compile
import TreeMachine.Proofs.Outcome

/-!
# What the steps of a compilation do

One lemma for each step that changes the state of a compilation, saying what holds if the step
succeeds. Code that is made of such steps is taken apart with these lemmas and `EStateM.bind_eq_ok`.
-/

open Array

namespace TreeMachine.Codegen

open TreeMachine.EStateM

def entries (s : CodegenState) : List StackEntry := s.function.stack.entries.toList

theorem depth_eq (s : CodegenState) : s.function.stack.depth = (entries s).length := by
  simp [entries, ModelStack.depth]

/-! ## The modeled stack -/

theorem entries_foldl_push (rs : List StackEntry) (m : ModelStack) :
    (rs.foldl ModelStack.push m).entries.toList = m.entries.toList ++ rs := by
  induction rs generalizing m with
  | nil => simp
  | cons e rs ih =>
    rw [List.foldl_cons, ih]
    simp [ModelStack.push]

theorem max_le_foldl_push (rs : List StackEntry) (m : ModelStack) : m.max ≤ (rs.foldl ModelStack.push m).max := by
  induction rs generalizing m with
  | nil => exact Nat.le_refl _
  | cons e rs ih => exact Nat.le_trans (Nat.le_max_left _ _) (ih (m.push e))

theorem depth_le_max_foldl_push (rs : List StackEntry) {m : ModelStack} (h : m.depth ≤ m.max) :
    (rs.foldl ModelStack.push m).depth ≤ (rs.foldl ModelStack.push m).max := by
  induction rs generalizing m with
  | nil => exact h
  | cons e rs ih =>
    refine ih ?_
    simp only [ModelStack.push, ModelStack.depth, size_push]
    exact Nat.le_max_right _ _

/-! ## Instructions -/

structure Emitted (op : Opcode) (vs : List Nat) (rs : List StackEntry) (e : Effect) (s s' : CodegenState) : Prop where
  length : vs.length = op.operands.length
  effect : Effect.of op vs s.function.chunk.constants = .ok e
  push : rs.length = e.push
  fits : oversized? op.operands vs = none
  pop : e.pop ≤ s.function.stack.depth
  eq : s' = { s with function := writeInstruction op vs e.pop rs s.function }

variable {kind : Kind} {op : Opcode} {vs : List Nat} {rs : List StackEntry} {s s' : CodegenState} {u : Unit}

theorem emit_eq_ok (h : emit kind op vs rs s = .ok u s') : ∃ e, Emitted op vs rs e s s' := by
  unfold emit at h
  split at h
  · cases h
  · rename_i pop hcheck
    cases h
    unfold checkEmit at hcheck
    split at hcheck
    · cases hcheck
    · rename_i hlen
      split at hcheck
      · cases hcheck
      · rename_i e he
        split at hcheck
        · cases hcheck
        · rename_i hpush
          split at hcheck
          · cases hcheck
          · rename_i hfits
            split at hcheck
            · rename_i hpop
              cases hcheck
              exact ⟨e, by simpa using hlen, he, by simpa using hpush, hfits, hpop, rfl⟩
            · cases hcheck

theorem Emitted.entries {e : Effect} (h : Emitted op vs rs e s s') {base removed : List StackEntry}
    (hs : entries s = base ++ removed) (hr : removed.length = e.pop) : Codegen.entries s' = base ++ rs := by
  have hlen : s.function.stack.entries.size = base.length + e.pop := by
    have := congrArg List.length hs
    simpa [Codegen.entries, hr] using this
  rw [h.eq]
  simp only [Codegen.entries, writeInstruction, entries_foldl_push, ModelStack.drop]
  rw [toList_shrink]
  have htake : s.function.stack.entries.toList.take (s.function.stack.entries.size - e.pop) = base := by
    have hs' : s.function.stack.entries.toList = base ++ removed := hs
    rw [hs', hlen, Nat.add_sub_cancel]
    exact List.take_left
  rw [htake]

variable {o : Nat}

theorem emitJump_eq_ok (h : emitJump kind op s = .ok o s') :
    o = s.function.chunk.code.size + 1 ∧ ∃ e, Emitted op [65535] [] e s s' := by
  obtain ⟨o', t, hhere, h⟩ := bind_eq_ok.1 h
  cases hhere
  obtain ⟨u, t, hemit, h⟩ := bind_eq_ok.1 h
  cases h
  exact ⟨rfl, emit_eq_ok hemit⟩

theorem addConstant_spec (c : Chunk) (k : Constant) :
    ∃ ks, (c.addConstant k).2 = { c with constants := ks } ∧ ks[(c.addConstant k).1]? = some k ∧
      (ks = c.constants ∨ ks = c.constants.push k) := by
  unfold Chunk.addConstant
  split
  · rename_i i hi
    refine ⟨c.constants, rfl, ?_, .inl rfl⟩
    split at hi
    · obtain ⟨hlt, hk, -⟩ := findIdx?_eq_some_iff_getElem.1 hi
      rw [getElem?_eq_getElem hlt]
      simpa using hk
    · cases hi
  · exact ⟨c.constants.push k, rfl, by simp, .inr rfl⟩

theorem constant_eq_ok {k : Constant} {i : Nat} (h : constant kind k s = .ok i s') :
    ∃ ks, s' = { s with function := { s.function with chunk := { s.function.chunk with constants := ks } } } ∧
      ks[i]? = some k ∧ (ks = s.function.chunk.constants ∨ ks = s.function.chunk.constants.push k) := by
  obtain ⟨j, t, hadd, hlimit⟩ := bind_eq_ok.1 h
  have hij : j = i ∧ t = s' := by
    split at hlimit
    · cases hlimit
    · exact pure_eq_ok.1 hlimit
  obtain ⟨rfl, rfl⟩ := hij
  obtain ⟨ks, hks, hi, hor⟩ := addConstant_spec s.function.chunk k
  obtain ⟨rfl, rfl⟩ := modifyGet_eq_ok.1 hadd
  dsimp only
  exact ⟨ks, by rw [hks], hi, hor⟩

theorem patchJump_eq_ok (h : patchJump kind o s = .ok u s') : s.function.chunk.code.size - o - 2 ≤ 65535 ∧
      s' = { s with function := { s.function with chunk := { s.function.chunk with
        code := (s.function.chunk.code.setIfInBounds o
          ((s.function.chunk.code.size - o - 2) / 256).toUInt8).setIfInBounds
            (o + 1) ((s.function.chunk.code.size - o - 2) % 256).toUInt8 } } } := by
  obtain ⟨n, t, hhere, h⟩ := bind_eq_ok.1 h
  cases hhere
  dsimp only at h
  split at h
  · cases h
  · rename_i hle
    cases h
    exact ⟨by simpa [maxJump] using hle, rfl⟩

/-! ## The top of the stack -/

variable {e : StackEntry}

theorem peek_eq_ok {n : Nat} (h : peek kind n s = .ok e s') :
    s = s' ∧ ∃ base above, entries s = base ++ e :: above ∧ above.length = n := by
  obtain ⟨t, t', hget, hpeek⟩ := bind_eq_ok.1 h
  obtain ⟨rfl, rfl⟩ := get_eq_ok.1 hget
  cases he : s.function.stack.peek n with
  | error f =>
    simp only [he] at hpeek
    cases hpeek
  | ok e' =>
    simp only [he] at hpeek
    obtain ⟨rfl, rfl⟩ := pure_eq_ok.1 hpeek
    unfold ModelStack.peek at he
    split at he
    · rename_i hlt
      cases he
      have hi : s.function.stack.entries.size - 1 - n < (entries s).length := by
        simp only [entries, length_toList]
        omega
      refine ⟨rfl, (entries s).take (s.function.stack.entries.size - 1 - n),
        (entries s).drop (s.function.stack.entries.size - 1 - n + 1), ?_, ?_⟩
      · have hat : s.function.stack.entries.getD (s.function.stack.entries.size - 1 - n) default =
            (entries s)[s.function.stack.entries.size - 1 - n] := by
          simp only [entries, length_toList] at hi
          simp [entries, hi]
        rw [hat, ← List.drop_eq_getElem_cons hi, List.take_append_drop]
      · simp only [List.length_drop, entries, length_toList] at hi ⊢
        omega
    · cases he

theorem peek_top_eq_ok (h : peek kind 0 s = .ok e s') : s = s' ∧ ∃ base, entries s = base ++ [e] := by
  obtain ⟨hs, base, above, he, hlen⟩ := peek_eq_ok h
  obtain rfl := List.eq_nil_of_length_eq_zero hlen
  exact ⟨hs, base, he⟩

theorem replaceTop_eq_ok (h : replaceTop kind e s = .ok u s') :
    s' = { s with function := { s.function with stack := (s.function.stack.drop 1).push e } } ∧
      ∃ base old, entries s = base ++ [old] ∧ entries s' = base ++ [e] := by
  obtain ⟨old, t, hpeek, hmodify⟩ := bind_eq_ok.1 h
  obtain ⟨rfl, base, hb⟩ := peek_top_eq_ok hpeek
  obtain rfl := modify_eq_ok.1 hmodify
  refine ⟨rfl, base, old, hb, ?_⟩
  have hb' : s.function.stack.entries.toList = base ++ [old] := hb
  have hsize : s.function.stack.entries.size = base.length + 1 := by
    have := congrArg List.length hb'
    simpa using this
  simp only [entries, ModelStack.drop, ModelStack.push, toList_push, toList_shrink, hb',
    hsize, Nat.add_sub_cancel, List.take_left']

end TreeMachine.Codegen
