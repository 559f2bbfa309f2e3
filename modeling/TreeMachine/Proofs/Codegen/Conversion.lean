import TreeMachine.Proofs.Codegen.Declining

/-!
# Conversions

A plan that was made between two types ends at its target: its last instruction leaves a value of the
target type (`Plan.Made.leadsTo`). So the code of a conversion turns an entry of the source type into one
of the target type (`runs_convert`), and a list of converted arguments leaves entries of the types of
the parameters.
-/

namespace TreeMachine

variable {explicit : Bool} {target : Ty} {steps : List ConversionStep}

def ConversionStep.leaves (target : Ty) : ConversionStep → Ty
  | box _ => target
  | unbox t | cast t | retag t | widen t | narrow t => t

namespace Plan

variable {U : Universe} {p : Plan}

def Made (U : Universe) (p : Plan) : Prop := ∃ explicit, make U p.source p.target explicit = .ok p

theorem made_of_make {a b : Option Ty} (h : make U a b explicit = .ok p) : p.Made U ∧ p.source = a ∧ p.target = b := by
  have hends : p.source = a ∧ p.target = b := by
    unfold make at h
    split at h
    · cases h
      exact ⟨rfl, rfl⟩
    · split at h
      · obtain ⟨steps, -, hp⟩ := Except.bind_eq_ok.1 h
        cases hp
        exact ⟨rfl, rfl⟩
      · cases h
  refine ⟨⟨explicit, ?_⟩, hends⟩
  rw [hends.1, hends.2, h]

theorem Made.source_eq_some (h : p.Made U) {t : Ty} (ht : p.target = some t) : ∃ u, p.source = some u := by
  obtain ⟨explicit, h⟩ := h
  unfold make at h
  split at h
  · rename_i heq
    exact ⟨t, heq.trans ht⟩
  · split at h
    · rename_i hs _
      exact ⟨_, hs⟩
    · cases h

theorem Made.target_eq_some (h : p.Made U) {t : Ty} (ht : p.source = some t) : ∃ u, p.target = some u := by
  obtain ⟨explicit, h⟩ := h
  unfold make at h
  split at h
  · rename_i heq
    exact ⟨t, heq.symm.trans ht⟩
  · split at h
    · rename_i _ hb
      exact ⟨_, hb⟩
    · cases h

def LeadsTo (target : Ty) (steps : List ConversionStep) : Prop :=
  ∀ step ∈ steps.getLast?, step.leaves target = target

theorem numberType_of_not_isEnum {t : Ty} (h : ¬U.isEnum t = true) : numberType U t = t := by
  rw [numberType, if_neg h]

theorem leadsTo_numericSteps (source target : Ty) : LeadsTo target (numericSteps U source target) := by
  unfold numericSteps LeadsTo
  split_ifs <;> simp [ConversionStep.leaves]

theorem leadsTo_scalarSteps {source : Ty}
    (h : scalarSteps U source target explicit = .ok steps) : LeadsTo target steps := by
  unfold scalarSteps at h
  split at h
  · cases h
  split at h
  · split at h
    · cases h
      by_cases ht : U.isEnum target = true
      · simp [LeadsTo, ht, ConversionStep.leaves]
      · -- the number type of the target is the target itself
        rw [if_neg ht, List.append_nil, numberType_of_not_isEnum ht]
        unfold numericSteps
        split_ifs with _ heq <;> simp [LeadsTo, ConversionStep.leaves]
        exact heq
    · cases h
  · split at h
    · cases h
      exact leadsTo_numericSteps source target
    · cases h

theorem leadsTo_steps? {source : Ty} (h : steps? U source target explicit = .ok steps) : LeadsTo target steps := by
  unfold steps? at h
  split at h
  · exact leadsTo_scalarSteps h
  · split_ifs at h <;> cases h <;> simp [LeadsTo, ConversionStep.leaves]

theorem Made.leadsTo (h : p.Made U) {t : Ty} (ht : p.target = some t) : LeadsTo t p.steps := by
  obtain ⟨source, target, steps⟩ := p
  obtain ⟨explicit, h⟩ := h
  subst ht
  unfold make at h
  split at h
  · cases h
    simp [LeadsTo]
  · split at h
    · rename_i b _ hb
      cases hb
      obtain ⟨steps', hsteps, hp⟩ := Except.bind_eq_ok.1 h
      cases hp
      exact leadsTo_steps? hsteps
    · cases h

end Plan

namespace Codegen

variable {ctx : Context} {r : Bool} {strict : Prop} {kind : Kind} {s s' : CodegenState} {α β : Type}
  {R : β → CodegenState → Prop}

theorem planned_eq_ok {reason : PlanError → Declined} {x : Except PlanError α} {a : α}
    (h : planned kind reason x s = .ok a s') : x = .ok a ∧ s = s' := by
  cases x with
  | error e => exact (EStateM.throw_ne_ok h).elim
  | ok b =>
    obtain ⟨rfl, rfl⟩ := EStateM.pure_eq_ok.1 h
    exact ⟨rfl, rfl⟩

theorem needType_eq_ok {t : Option Ty} {a : Ty} (h : needType kind t s = .ok a s') : t = some a ∧ s = s' := by
  cases t with
  | none => exact (EStateM.throw_ne_ok h).elim
  | some b =>
    obtain ⟨rfl, rfl⟩ := EStateM.pure_eq_ok.1 h
    exact ⟨rfl, rfl⟩

theorem Runs.needType {t : Ty} {f : Ty → Codegen β} (h : Runs strict (f t) s R) :
    Runs strict (needType kind (some t) >>= f) s R := h

theorem Runs.plan {reason : PlanError → Declined} {a b : Option Ty} {f : Plan → Codegen β}
    (hf : ∀ {p : Plan}, p.Made ctx.types → p.source = a → p.target = b → Runs strict (f p) s R) :
    Runs strict (planned kind reason (Plan.make ctx.types a b explicit) >>= f) s R := by
  cases hmake : Plan.make ctx.types a b explicit with
  | error e => exact fun _ => rfl
  | ok p =>
    obtain ⟨hmade, hsource, htarget⟩ := Plan.made_of_make hmake
    exact hf hmade hsource htarget

theorem runs_own {base : List StackEntry} {e : StackEntry} (hok : s.function.slots.Ok) (hb : entries s = base ++ [e]) :
    Runs strict (own ctx kind) s fun _ s' => ∃ a, Turned r [e] [⟨e.type, a⟩] s s' := by
  have hsame : ∃ a, Turned r [e] [⟨e.type, a⟩] s s := ⟨e.addressable, .refl _ hok⟩
  refine .peekTop hb ?_
  split
  · rename_i t ht
    rw [ht] at hsame ⊢
    exact .ite (fun _ => .imp (runs_plain hok hb rfl rfl rfl) fun h => ⟨false, h⟩) fun _ => hsame
  · exact hsame

theorem runs_emitStep {base : List StackEntry} {e : StackEntry} {step : ConversionStep}
    (hok : s.function.slots.Ok) (hb : entries s = base ++ [e]) : Runs strict (emitStep ctx kind target step) s
      fun _ s' => ∃ a, Turned r [e] [⟨some (step.leaves target), a⟩] s s' := by
  cases step with
  | box t =>
    refine .bind (runs_own (r := r) hok hb) fun ⟨a, hown⟩ => ?_
    exact .imp (runs_emitConstant hown.ok (hown.entries _ hb) rfl rfl (fun _ => rfl) fun hk => ⟨t, hk⟩)
      fun h => ⟨false, hown.trans h⟩
  | unbox t | cast t | retag t =>
    exact .imp (runs_emitConstant hok hb rfl rfl (fun _ => rfl) fun hk => ⟨t, hk⟩) fun h => ⟨_, h⟩
  | widen t | narrow t => exact .imp (runs_emit hok hb rfl rfl rfl fun _ => trivial) fun h => ⟨false, h⟩

theorem runs_emitSteps (hne : steps ≠ [])
    (hlead : Plan.LeadsTo target steps) {base : List StackEntry} {e : StackEntry} (hok : s.function.slots.Ok)
    (hb : entries s = base ++ [e]) :
    Runs strict (emitSteps ctx kind target steps) s fun _ s' => ∃ a, Turned r [e] [⟨some target, a⟩] s s' := by
  induction steps generalizing s e with
  | nil => exact absurd rfl hne
  | cons step steps ih =>
    refine .bind (runs_emitStep (r := r) hok hb) fun ⟨a, ht⟩ => ?_
    cases steps with
    | nil =>
      rw [hlead step rfl] at ht
      exact .pure ⟨a, ht⟩
    | cons step' steps =>
      exact .imp (ih (by simp) (fun x hx => hlead x hx) ht.ok (ht.entries _ hb)) fun ⟨a', h⟩ => ⟨a', ht.trans h⟩

section

variable {p : Plan} (hp : p.Made ctx.types) {base : List StackEntry} {e : StackEntry} {t : Ty}
  (hok : s.function.slots.Ok) (hb : entries s = base ++ [e]) (he : e.type = p.source) (hsource : p.source = some t)
include hp hok hb he hsource

theorem runs_convert : Runs strict (convert ctx kind p) s fun _ s' => ∃ a, Turned r [e] [⟨p.target, a⟩] s s' := by
  refine .ite (fun hid => ?_) fun _ => ?_
  · have hsame : p.source = p.target := by simpa [Plan.isIdentity] using hid
    rw [← hsame, ← he]
    exact .pure ⟨e.addressable, .refl _ hok⟩
  · obtain ⟨target, htarget⟩ := hp.target_eq_some hsource
    have hlead := hp.leadsTo htarget
    rw [htarget]
    refine .needType ?_
    split
    · exact .peekTop hb (.imp (runs_replaceTop hok hb) fun h => ⟨_, h⟩)
    · exact runs_emitSteps ‹_› hlead hok hb

theorem runs_deliver : Runs strict (deliver ctx kind p) s fun _ s' => ∃ a, Turned r [e] [⟨p.target, a⟩] s s' := by
  refine .bind (runs_convert (r := r) hp hok hb he hsource) fun ⟨a, ht⟩ => ?_
  exact .imp (runs_own ht.ok (ht.entries _ hb)) fun ⟨a', h⟩ => ⟨a', ht.trans h⟩

end

/-! ## Planning -/

def PlansFor (U : Universe) (es : List Expr) (params : List (Option Ty)) (plans : List Plan) : Prop :=
  List.Forall₂ (fun (e : Expr) (p : Plan) => p.Made U ∧ p.source = e.type) es plans ∧
    plans.map Plan.target = params

variable {params : List (Option Ty)} {es : List Expr}

theorem runs_planEach {reason : Nat → PlanError → Declined} {acc : List Plan} {i : Nat}
    (hlen : es.length = params.length) : Runs strict (planEach ctx kind reason i params es acc) s fun plans s' =>
      s' = s ∧ ∃ ps, plans = acc.reverse ++ ps ∧ PlansFor ctx.types es params ps := by
  induction params generalizing es acc i with
  | nil =>
    obtain rfl := List.eq_nil_of_length_eq_zero hlen
    exact .pure ⟨rfl, [], by simp, .nil, rfl⟩
  | cons t params ih =>
    cases es with
    | nil => cases hlen
    | cons e es =>
      refine .plan fun {p} hmade hs ht => .imp (ih (by simpa using hlen)) ?_
      rintro plans _ ⟨rfl, ps, rfl, hps, htargets⟩
      exact ⟨rfl, p :: ps, by simp, .cons ⟨hmade, hs⟩ hps, by rw [List.map_cons, ht, htargets]⟩

theorem Runs.planArgs {f : List Plan → Codegen β}
    (hf : ∀ {plans : List Plan}, PlansFor ctx.types es params plans → Runs strict (f plans) s R) :
    Runs strict (planArgs ctx kind params es >>= f) s R := by
  refine .bind (Q := fun plans s' => s' = s ∧ PlansFor ctx.types es params plans) ?_ fun ⟨hs, hfor⟩ => hs ▸ hf hfor
  refine .ite (fun _ => .decline) fun _ => .ite (fun _ => .decline) fun hlen => ?_
  refine .imp (runs_planEach (not_not.1 hlen)) ?_
  rintro plans _ ⟨rfl, ps, rfl, hps⟩
  exact ⟨rfl, hps⟩

end Codegen

end TreeMachine
