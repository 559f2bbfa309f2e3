import TreeMachine.Proofs.Codegen.Functions
import TreeMachine.Proofs.Codegen.Plans
import TreeMachine.Strategy

/-!
# Shapes that compile

The compiler has no check of the shape that a tree is called with: a shape is declined where a conversion of a
parameter or of the result is not planned. `Program.checkShape` says which shapes there are for a tree.

* **`Compiler.checkShape_of_compile`**: a tree compiles only for those.
-/

namespace TreeMachine

open TreeMachine.EStateM (bind_eq_ok pure_eq_ok ite_eq_ok throw_ne_ok)

namespace Codegen

variable {ctx : Context} {kind : Kind} {s s' : CodegenState} {u : Unit}

def Tops (s : CodegenState) (t : Option Ty) : Prop := ∃ base e, entries s = base ++ [e] ∧ e.type = t

theorem tops_emit {op : Opcode} {vs : List Nat} {e : StackEntry} (h : emit kind op vs [e] s = .ok u s') :
    Tops s' e.type := by
  obtain ⟨eff, hemit⟩ := emit_eq_ok h
  have hpop : eff.pop ≤ (entries s).length := depth_eq s ▸ hemit.pop
  refine ⟨_, e, hemit.entries (List.take_append_drop ((entries s).length - eff.pop) _).symm ?_, rfl⟩
  rw [List.length_drop]
  omega

theorem tops_emitStep {target : Ty} {step : ConversionStep} (h : emitStep ctx kind target step s = .ok u s') :
    Tops s' (some (step.leaves target)) := by
  cases step with
  | box t =>
    obtain ⟨_, s₁, -, h⟩ := bind_eq_ok.1 h
    obtain ⟨i, s₂, -, h⟩ := bind_eq_ok.1 h
    exact tops_emit h
  | unbox t | cast t | retag t =>
    obtain ⟨i, s₁, -, h⟩ := bind_eq_ok.1 h
    exact tops_emit h
  | widen t | narrow t => exact tops_emit h

theorem tops_emitSteps {target : Ty} {steps : List ConversionStep} (hne : steps ≠ [])
    (hlead : Plan.LeadsTo target steps) (h : emitSteps ctx kind target steps s = .ok u s') :
    Tops s' (some target) := by
  induction steps generalizing s with
  | nil => exact absurd rfl hne
  | cons step steps ih =>
    obtain ⟨_, s₁, hstep, hrest⟩ := bind_eq_ok.1 h
    cases steps with
    | nil =>
      obtain ⟨-, rfl⟩ := pure_eq_ok.1 hrest
      rw [← hlead step rfl]
      exact tops_emitStep hstep
    | cons step' steps => exact ih (by simp) (fun x hx => hlead x hx) hrest

theorem tops_convert {p : Plan} (hp : p.Made ctx.types) (hs : Tops s p.source)
    (h : convert ctx kind p s = .ok u s') : Tops s' p.target := by
  unfold convert at h
  rcases ite_eq_ok.1 h with ⟨hid, h⟩ | ⟨-, h⟩
  · obtain ⟨-, rfl⟩ := pure_eq_ok.1 h
    have hsame : p.source = p.target := by simpa [Plan.isIdentity] using hid
    rw [← hsame]
    exact hs
  · obtain ⟨target, s₁, hneed, h⟩ := bind_eq_ok.1 h
    obtain ⟨htarget, rfl⟩ := needType_eq_ok hneed
    rw [htarget]
    cases hsteps : p.steps with
    | nil =>
      simp only [hsteps] at h
      obtain ⟨top, s₂, -, h⟩ := bind_eq_ok.1 h
      obtain ⟨-, base, old, -, hnew⟩ := replaceTop_eq_ok h
      exact ⟨base, _, hnew, rfl⟩
    | cons step steps =>
      simp only [hsteps] at h
      exact tops_emitSteps (by simp) (hsteps ▸ hp.leadsTo htarget) h

theorem coerce_plans {t : Ty} (h : coerce ctx t s = .ok u s') :
    Tops s' (some t) ∧ ∀ r, Tops s r → ∃ p, Plan.make ctx.types r (some t) false = .ok p := by
  obtain ⟨top, s₁, hpeek, h⟩ := bind_eq_ok.1 h
  obtain ⟨rfl, base, hb⟩ := peek_top_eq_ok hpeek
  obtain ⟨plan, s₁, hplan, h⟩ := bind_eq_ok.1 h
  obtain ⟨hmake, rfl⟩ := planned_eq_ok hplan
  obtain ⟨hmade, hsource, htarget⟩ := Plan.made_of_make hmake
  refine ⟨htarget ▸ tops_convert hmade ⟨base, top, hb, hsource.symm⟩ h, ?_⟩
  rintro r ⟨base', e, hb', rfl⟩
  obtain ⟨-, he⟩ := List.append_inj' (hb'.symm.trans hb) rfl
  rw [List.singleton_inj.1 he]
  exact ⟨plan, hmake⟩

theorem badParam?_of_prologue (hU : ctx.types.Declared) {lambda i : Nat} {vs : List Var} {ts : List (Option Ty)}
    (h : prologue ctx lambda i vs ts s = .ok u s') : Program.badParam? ctx.types vs ts = none := by
  induction vs generalizing ts s i with
  | nil => rfl
  | cons v vs ih =>
    cases ts with
    | nil => rfl
    | cons t ts =>
      suffices hconverts : ctx.types.convertsImplicitlyOf t (some v.type) = true ∧
          Program.badParam? ctx.types vs ts = none by
        rw [Program.badParam?, if_pos hconverts.1]
        exact hconverts.2
      rcases ite_eq_ok.1 h with ⟨rfl, hsame⟩ | ⟨-, h⟩
      · obtain ⟨_, s₁, -, hrest⟩ := bind_eq_ok.1 hsame
        refine ⟨?_, ih hrest⟩
        show ctx.types.convertsImplicitly v.type v.type = true
        rw [Universe.convertsImplicitly, if_pos rfl]
      · obtain ⟨plan, s₁, hplan, h⟩ := bind_eq_ok.1 h
        obtain ⟨hmake, rfl⟩ := planned_eq_ok hplan
        obtain ⟨source, s₁, -, h⟩ := bind_eq_ok.1 h
        obtain ⟨_, s₂, -, h⟩ := bind_eq_ok.1 h
        obtain ⟨_, s₃, -, h⟩ := bind_eq_ok.1 h
        obtain ⟨slot, s₄, -, h⟩ := bind_eq_ok.1 h
        obtain ⟨_, s₅, -, h⟩ := bind_eq_ok.1 h
        obtain ⟨_, s₆, -, hrest⟩ := bind_eq_ok.1 h
        exact ⟨(Plan.exists_make_iff hU t (some v.type) false).1 ⟨plan, hmake⟩, ih hrest⟩

theorem converts_of_epilogue (hU : ctx.types.Declared) {body own : Option Ty} {t : Ty}
    (h : epilogue ctx body own (some t) s = .ok u s') :
    ∃ r, own = some r ∧ ctx.types.convertsImplicitly r t = true := by
  cases own with
  | none => exact (throw_ne_ok h).elim
  | some r =>
    obtain ⟨_, s₁, hfirst, h⟩ := bind_eq_ok.1 h
    obtain ⟨_, s₂, hsecond, -⟩ := bind_eq_ok.1 h
    have hplan := (coerce_plans hsecond).2 _ (coerce_plans hfirst).1
    exact ⟨r, rfl, (Plan.exists_make_iff hU (some r) (some t) false).1 hplan⟩

end Codegen

namespace Compiler

variable {U : Universe} {options : Options} {root : Lambda} {shape : Shape} {a : Artifact}

theorem checkShape_of_compile (hU : U.Declared) (h : compile U options (some root) shape = .ok a) :
    Program.checkShape U root shape = .ok () := by
  unfold compile at h
  simp only at h
  split_ifs at h with hlength
  split at h
  · cases h
  split at h
  · rename_i main s hmain
    obtain ⟨_, s₁, -, h⟩ := bind_eq_ok.1 hmain
    obtain ⟨_, s₂, -, h⟩ := bind_eq_ok.1 h
    obtain ⟨_, s₃, hprologue, h⟩ := bind_eq_ok.1 h
    obtain ⟨_, s₄, -, h⟩ := bind_eq_ok.1 h
    obtain ⟨_, s₅, hepilogue, -⟩ := bind_eq_ok.1 h
    unfold Program.checkShape
    rw [if_neg hlength, Codegen.badParam?_of_prologue hU hprologue]
    cases hresult : shape.result with
    | none => rfl
    | some t =>
      rw [hresult] at hepilogue
      obtain ⟨r, hown, hconverts⟩ := Codegen.converts_of_epilogue hU hepilogue
      simp only [hown, hconverts, if_true]
  · cases h

end Compiler

end TreeMachine
