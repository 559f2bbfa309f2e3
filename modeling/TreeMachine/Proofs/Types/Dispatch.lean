import TreeMachine.Codegen.Nodes
import TreeMachine.Machine.Step
import TreeMachine.Proofs.Types.Assignability

/-!
# Calls find their methods

A call names a method of the static type of its receiver; what runs is the implementation that the dynamic
type has for it. Vtables are indexed by slot and interface tables by position, so a wrong index would call
another method. `dispatch_safe` says that none does: an accepted call has an implementation of the same name
and signature at run time, and the instruction that is compiled for the call runs that one.

Only a value whose dynamic type is the type of null falls out (`null_instance_unimplemented`): it passes for
everything and implements nothing.
-/

namespace TreeMachine

open Builtin

namespace Universe

variable {U : Universe} {d t : Ty} {m : Method}

theorem Declared.flat_of_decls (hU : U.Declared)
    (h : ∀ d ∈ U.decls, (d.form = .interface → d.interfaces = []) ∧ .null ∉ d.lineage) : U.Flat := by
  have hdecl : ∀ t, ((U.decl t).form = .interface → (U.decl t).interfaces = []) ∧
      .null ∉ (U.decl t).lineage := by
    intro t
    cases t with
    | declared i =>
      unfold decl
      cases hd : U.decls[i]? with
      | none => simp [Array.getD_eq_getD_getElem?, hd, default, instInhabitedTypeDecl.default]
      | some d => simpa [Array.getD_eq_getD_getElem?, hd] using h d (Array.mem_of_getElem? hd)
    | _ =>
      simp [decl, object, valueType, enumBase, null, scalar,
        string, comparable, disposable, array]
  refine ⟨hU, fun t hi => (hdecl t).1 ?_, fun t => (hdecl t).2⟩
  unfold isInterface storage at hi
  cases hform : (U.decl t).form <;> simp_all

theorem Declared.resolve_of_interface (hU : U.Declared) (hi : U.isInterface d = true) : U.resolve d m = some m := by
  have hslot : inSlot? (U.decl d).vtable m = none := by
    rw [(hU.bare_of_interface hi).2.2, inSlot?]
    cases m.slot <;> rfl
  simp [resolve, hi, hslot]

theorem resolve_of_no_slot (hi : U.isInterface m.owner = false) (hs : m.slot = none) : U.resolve d m = some m := by
  simp [resolve, hi, inSlot?, hs]

theorem Closed.owner_of_delegate (hU : U.Closed) (ht : U.isDelegate t = true) (hm : U.Declares m)
    (ho : Build.hasMethodsOf U t m.owner = true) : m.owner = .object := by
  obtain ⟨sig, hsig⟩ := Option.isSome_iff_exists.1 ht
  have hne : t ≠ .null := by
    rintro rfl
    cases ht
  rcases (Is.refl.hasMethodsOf hU hne ho).signature_of_delegate hU.declared hsig with h | h
  · exact h
  · rw [Declares, (hU.declared.bare_of_delegate h).1.methods] at hm
    cases hm

end Universe

namespace Store

variable {U : Universe} {s : Store} {v : Value} {d t : Ty} {m : Method}

theorem eq_of_isOf_value (hv : U.isValue t = true) (h : s.isOf U v t = some true)
    (hd : s.dynamicType v = some d) : d = t := by
  unfold isOf at h
  unfold Universe.isValue at hv
  cases hs : U.storage t with
  | scalar =>
    simp only [hs, Option.some.injEq, Bool.and_eq_true, decide_eq_true_eq] at h
    obtain ⟨htype, hdatum⟩ := h
    have hplain : s.dynamicType v = v.type := by
      unfold dynamicType
      cases hv : v.datum <;> simp_all
    exact Option.some.inj (hd.symm.trans (hplain.trans htype))
  | aggregate =>
    simp only [hs] at h
    split at h
    · simp only [Option.some.injEq, decide_eq_true_eq] at h
      exact Option.some.inj (hd.symm.trans h)
    · cases h
  | reference | interface => simp [hs, Storage.isValue] at hv

/-- **The receiver of an accepted call** is seen at the owner of the method. -/
theorem is_owner_of_isOf (hU : U.Closed) (hm : U.Declares m) (ho : Build.hasMethodsOf U t m.owner = true)
    (h : s.isOf U v t = some true) (hnil : v.isNil = false) (hd : s.dynamicType v = some d) (hne : d ≠ .null) :
    U.Is d m.owner := by
  cases hv : U.isValue t with
  | true =>
    obtain rfl := eq_of_isOf_value hv h hd
    exact Universe.Is.refl.hasMethodsOf hU hne ho
  | false =>
    rw [isOf_reference hv, hnil, if_neg Bool.false_ne_true, isInstance_eq_true_iff] at h
    rcases h with h | rfl | ⟨d', hd', hlead⟩
    · obtain rfl := Option.some.inj (hd.symm.trans h)
      exact Universe.Is.refl.hasMethodsOf hU hne ho
    · exact Universe.Is.object.hasMethodsOf hU hne ho
    · obtain rfl := Option.some.inj (hd.symm.trans hd')
      unfold Leads at hlead
      split at hlead
      · exact (Universe.Is.of_boxesTo hU.declared hlead).hasMethodsOf hU hne ho
      · rw [hU.owner_of_delegate hlead.1 hm ho]
        exact .object
      · exact (Universe.Is.refl.assignable hU hne hlead).hasMethodsOf hU hne ho

end Store

namespace Codegen

variable {U : Universe} {s : Store} {v : Value} {d t : Ty} {m impl : Method}

def callInstruction (op : Opcode) (m : Method) : Instruction :=
  if op = .call then .call m else .callDynamic m

theorem operands_call {c : Chunk} {op : Opcode} {m : Method} {o o' : Nat}
    (hop : op = .call ∨ op = .callVirtual ∨ op = .callInterface) (h : Fetch.method c o = .ok (m, o')) :
    Instruction.operands c op o = .ok (callInstruction op m, o') := by
  have hmap : ∀ f : Method → Instruction, (f <$> Fetch.method c) o = .ok (f m, o') := by
    intro f
    show StateT.map f (Fetch.method c) o = _
    unfold StateT.map
    rw [h]
    rfl
  rcases hop with rfl | rfl | rfl <;> exact hmap _

theorem execute_callDynamic {ctx : Machine.Context} {f : Frame} (hpeek : f.peek m.params.length s = .ok v s)
    (hnil : v.isNil = false) (hd : s.dynamicType v = some d) (himpl : ctx.host.types.resolve d m = some impl) :
    Machine.execute ctx f (.callDynamic m) s = Machine.callMethod ctx f m impl s := by
  show Machine.callDynamic ctx f m s = _
  unfold Machine.callDynamic
  rw [EStateM.bind_of_ok hpeek, hnil, if_neg Bool.false_ne_true]
  have hdynamic : Exec.dynamicType v s = .ok (some d) s := congrArg (EStateM.Result.ok · s) hd
  rw [EStateM.bind_of_ok hdynamic, Universe.resolveOf, himpl]
  rfl

/-- **Dispatch is safe.** Where a call of a method is accepted for receivers of type `t`, every value of that
type with a dynamic type other than that of null has an implementation of the method, which takes a receiver
and has the name, parameters and result of the method. The instruction that is compiled for the call, an opcode
with a method of the pool, runs it. -/
theorem dispatch_safe (hU : U.Flat) (hm : U.Declares m) (hstatic : m.isStatic = false)
    (ho : Build.hasMethodsOf U t m.owner = true) (hv : s.isOf U v t = some true) (hnil : v.isNil = false)
    (hd : s.dynamicType v = some d) (hne : d ≠ .null) :
    ∃ impl, U.resolve (if U.isValue t then t else d) m = some impl ∧ impl.isStatic = false ∧
      impl.name = m.name ∧ impl.params = m.params ∧ impl.result = m.result ∧
      ∃ op target, dispatch U t m = (op, some target) ∧
        ∀ (c : Chunk) (o o' : Nat), Fetch.method c o = .ok (target, o') →
          ∃ i, Instruction.operands c op o = .ok (i, o') ∧
            ∀ (ctx : Machine.Context) (f : Frame), ctx.host.types = U →
              f.peek m.params.length s = .ok v s →
              Machine.execute ctx f i s = Machine.callMethod ctx f target impl s := by
  have his := s.is_owner_of_isOf hU.closed hm ho hv hnil hd hne
  obtain ⟨impl, himpl, hsame⟩ : ∃ impl, U.resolve d m = some impl ∧ impl.SameSignature m := by
    cases hi : U.isInterface d with
    | true => exact ⟨m, hU.declared.resolve_of_interface hi, .refl m⟩
    | false =>
      obtain ⟨impl, himpl, h⟩ := hU.declared.resolve_of_is hi hm hstatic his
      exact ⟨impl, himpl, h.same⟩
  have hreceiver : (if U.isValue t then t else d) = d := by
    split
    · rename_i hvalue
      exact (Store.eq_of_isOf_value hvalue hv hd).symm
    · rfl
  refine ⟨impl, by rw [hreceiver, himpl], hsame.isStatic.trans hstatic, hsame.name, hsame.params,
    hsame.result, ?_⟩
  -- a call that is bound when it is compiled names its implementation; all others look it up
  suffices hcall : dispatch U t m = (.call, some impl) ∨
      ∃ op, (op = .callVirtual ∨ op = .callInterface) ∧ dispatch U t m = (op, some m) by
    rcases hcall with hcall | ⟨op, hop, hcall⟩
    · exact ⟨.call, impl, hcall, fun c o o' hm => ⟨_, operands_call (.inl rfl) hm, fun ctx f _ _ => rfl⟩⟩
    · refine ⟨op, m, hcall, fun c o o' hm => ⟨_, operands_call (.inr hop) hm, fun ctx f htypes hpeek => ?_⟩⟩
      have hdynamic : callInstruction op m = .callDynamic m := by rcases hop with rfl | rfl <;> rfl
      rw [hdynamic]
      exact execute_callDynamic hpeek hnil hd (by rw [htypes, himpl])
  unfold dispatch
  rw [hstatic, if_neg Bool.false_ne_true]
  by_cases hvalue : U.isValue t = true
  · obtain rfl := Store.eq_of_isOf_value hvalue hv hd
    rw [if_pos hvalue, himpl]
    exact .inl rfl
  rw [if_neg hvalue]
  by_cases hi : U.isInterface m.owner = true
  · rw [if_pos hi]
    exact .inr ⟨_, .inr rfl, rfl⟩
  rw [if_neg hi]
  cases hslot : m.slot with
  | some k => exact .inr ⟨_, .inl rfl, rfl⟩
  | none =>
    -- nothing can override the method
    have hself := Universe.resolve_of_no_slot (d := d) (by simpa using hi) hslot
    obtain rfl := Option.some.inj (hself.symm.trans himpl)
    exact .inl rfl

/-! ## An override behind an interface -/

/-- Something that speaks: an interface, a class that implements it by a virtual method, and a class below
that overrides the method. -/
def speakers : Universe := Universe.declareAll {} [
  ⟨"Speaker", .interface, [.method "Speak" [] (some .string) none]⟩,
  ⟨"Animal", .classType none,
    [.virtualMethod "Speak" [] (some .string) (some 0), .implements [some (.declared 0)]]⟩,
  ⟨"Dog", .classType (some (.declared 1)), [.overrideMethod "Speak" [] (some 1)]⟩]

def speak : Method := { owner := .declared 0, serial := 0, name := "Speak", result := some .string }

theorem speakers_flat : speakers.Flat := (Universe.Declared.empty.declareAll _).flat_of_decls (by decide +kernel)

/-- A dog that is seen as a speaker speaks like a dog. -/
theorem dispatch_safe_dog :
    speakers.resolve (.declared 2) speak = some
      { owner := .declared 2, serial := 0, name := "Speak", result := some .string, isVirtual := true
        slot := some 3, body := some (.host 1) } ∧
    ∃ impl, speakers.resolve (.declared 2) speak = some impl ∧ impl.isStatic = false ∧
      impl.name = "Speak" ∧ impl.params = [] ∧ impl.result = some .string := by
  obtain ⟨impl, himpl, hs, hn, hp, hr, -⟩ := dispatch_safe (U := speakers)
    (s := { objects := #[⟨some (.declared 2), #[]⟩] }) (v := ⟨some (.declared 1), .object 0⟩)
    (d := .declared 2) (t := .declared 0) (m := speak) speakers_flat (by decide +kernel) rfl (by decide +kernel)
    (by decide +kernel) rfl rfl (by decide)
  exact ⟨by decide +kernel, impl, himpl, hs, hn, hp, hr⟩

/-- **An instance of the type of null** passes for a comparable, but has nothing to compare with. -/
theorem null_instance_unimplemented : Universe.Flat {} ∧ Universe.Declares {} compareTo ∧
    compareTo.isStatic = false ∧
    Build.hasMethodsOf {} .comparable compareTo.owner = true ∧
    Store.isOf {} { objects := #[⟨some .null, #[]⟩] } ⟨some .null, .object 0⟩ .comparable = some true ∧
    Store.dynamicType { objects := #[⟨some .null, #[]⟩] } ⟨some .null, .object 0⟩ = some .null ∧
    Universe.resolve {} .null compareTo = none :=
  ⟨Universe.Declared.empty.flat_of_decls (by simp), by decide +kernel⟩

end Codegen

end TreeMachine
