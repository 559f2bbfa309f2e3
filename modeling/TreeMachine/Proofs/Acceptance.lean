import TreeMachine.Proofs.Cache
import TreeMachine.Proofs.Codegen.Shapes
import TreeMachine.Proofs.Tree.Fingerprint

/-!
# Shapes that are accepted

A tree that the compiler declines is walked, so a shape is refused where walking refuses it. A shape that compiles is
one that can be walked (`Compiler.checkShape_of_compile`), so what is accepted does not depend on what the compiler
can do: not on its options, and not on a cache that has the outcome of another tree with the same fingerprint. Such
trees have the same parameters and the same result (`Fingerprint.same_signature`).
-/

namespace TreeMachine

open Program Compiler Cache

/-! ## Binding -/

namespace Program

variable {U : Universe} {root : Option Lambda} {l : Lambda} {shape : Shape} {depth : Int}

theorem shape_of_bind {c : Cause} (h : bind U root shape depth = .error c) : ∃ e, c = .shape e := by
  unfold bind at h
  split at h
  · cases h
    exact ⟨_, rfl⟩
  · split at h
    · cases h
      exact ⟨_, rfl⟩
    · cases h

theorem bind_of_checkShape (h : checkShape U l shape = .ok ()) (depth : Int) :
    ∃ p, bind U (some l) shape depth = .ok p := by
  unfold bind
  simp only [h]
  exact ⟨_, rfl⟩

theorem badParam?_congr {vs ws : List Var} (hws : vs.map (·.type) = ws.map (·.type)) {ts : List (Option Ty)}
    (h : badParam? U vs ts = none) : badParam? U ws ts = none := by
  induction vs generalizing ws ts with
  | nil =>
    obtain rfl : ws = [] := by simpa using hws.symm
    rfl
  | cons v vs ih =>
    cases ws with
    | nil => cases hws
    | cons w ws =>
      obtain ⟨htype, hws⟩ : v.type = w.type ∧ vs.map (·.type) = ws.map (·.type) := List.cons.inj hws
      cases ts with
      | nil => rfl
      | cons t ts =>
        unfold badParam? at h ⊢
        rw [← htype]
        split at h
        · rename_i hconverts
          rw [if_pos hconverts]
          exact ih hws h
        · cases h

theorem checkShape_congr {m : Lambda} (hparams : l.params.map (·.type) = m.params.map (·.type))
    (hresult : l.result = m.result) (h : checkShape U l shape = .ok ()) : checkShape U m shape = .ok () := by
  have hlength : m.params.length = l.params.length := by simpa using (congrArg List.length hparams).symm
  unfold checkShape at h ⊢
  rw [hlength, ← hresult]
  split at h
  · cases h
  · rename_i hcount
    rw [if_neg hcount]
    split at h
    · cases h
    · rename_i hnone
      rw [badParam?_congr hparams hnone]
      exact h

end Program

/-! ## What the compiler gives -/

variable {U : Universe} {root : Option Lambda} {shape : Shape}

theorem Strategy.orWalk_error_iff {c : Except CompileFailure Artifact}
    (hdeclines : ∀ e, c = .error e → e.isUnsupported = true)
    (hok : ∀ a, c = .ok a → ∃ p, bind U root shape defaultDepth = .ok p) :
    (∃ e, Strategy.orWalk U c root shape = .error e) ↔
      ∃ e, bind U root shape defaultDepth = .error (.shape e) := by
  unfold orWalk orElse
  cases c with
  | ok a =>
    obtain ⟨p, hp⟩ := hok a rfl
    rw [hp]
    exact ⟨fun ⟨_, h⟩ => (nomatch h), fun ⟨_, h⟩ => (nomatch h)⟩
  | error err =>
    simp only [hdeclines err rfl, if_true, walk]
    cases hbind : bind U root shape defaultDepth with
    | ok p => exact ⟨fun ⟨_, h⟩ => (nomatch h), fun ⟨_, h⟩ => (nomatch h)⟩
    | error cause =>
      obtain ⟨e, rfl⟩ := shape_of_bind hbind
      exact ⟨fun _ => ⟨e, rfl⟩, fun _ => ⟨_, rfl⟩⟩

variable {options : Options} {a : Artifact} {s : Store} {l : Lambda}

namespace Compiler

theorem compile_of_answer (h : answer U s options root shape = .ok a) : compile U options root shape = .ok a := by
  unfold answer at h
  split at h
  · cases h
    assumption
  · split at h <;> cases h

/-- A tree whose text ends is compiled or declined, or the compilation is broken. -/
theorem declines_of_prints (hprints : l.toExpr.prints s = true) {e : CompileFailure}
    (hsettled : ∀ kind fault, e ≠ .error (.internal kind fault))
    (h : answer U s options (some l) shape = .error e) : e.isUnsupported = true := by
  rw [answer_of_prints hprints] at h
  cases hcompile : compile U options (some l) shape with
  | ok a =>
    rw [hcompile] at h
    cases h
  | error e' =>
    rw [hcompile] at h
    cases h
    cases e' with
    | unsupported => rfl
    | internal kind fault => exact absurd rfl (hsettled kind fault)

theorem bind_of_answer (hU : U.Declared) (h : answer U s options root shape = .ok a) (depth : Int) :
    ∃ p, bind U root shape depth = .ok p := by
  cases root with
  | none => cases h
  | some l => exact bind_of_checkShape (checkShape_of_compile hU (compile_of_answer h)) depth

end Compiler

/-! ## What a cache gives -/

structure CacheRequest.Over (U : Universe) (r : CacheRequest) : Prop where
  types : r.types = U
  checked : r.root.toExpr.Checked U
  filled : r.root.toExpr.All (Expr.Filled U r.store)

variable {r : CacheRequest}

theorem Fingerprint.same_signature (hU : U.Declared) {q : CacheRequest} (hq : q.Over U) (hr : r.Over U)
    (h : q.key = r.key) : q.shape = r.shape ∧
      q.root.params.map (·.type) = r.root.params.map (·.type) ∧ q.root.result = r.root.result := by
  obtain ⟨hshape, R, -, hsame⟩ := same_of_ofTree_eq hU hq.checked hr.checked hq.filled hr.filled h
  -- the delegate type of a lambda has its signature
  have htype : q.root.type = r.root.type := by
    cases hsame with
    | node _ htype => exact Option.some.inj htype
  have hqs : U.signature? q.root.type = some (q.root.params.map (·.type), q.root.result) :=
    hq.checked.proper.2.2
  have hrs : U.signature? r.root.type = some (r.root.params.map (·.type), r.root.result) :=
    hr.checked.proper.2.2
  rw [htype, hrs] at hqs
  obtain ⟨hps, hres⟩ := Prod.mk.inj (Option.some.inj hqs)
  exact ⟨hshape, hps.symm, hres.symm⟩

theorem Cache.bind_of_outcome (hU : U.Declared) {past : List CacheEvent}
    (hpast : ∀ q ∈ recent past, q.Over U) (hr : r.Over U)
    (h : (after options past).outcome r = .ok a) (depth : Int) :
    ∃ p, bind U (some r.root) r.shape depth = .ok p := by
  rw [(reflects_after past).outcome_eq r] at h
  cases hholder : holder? options (recent past) r.key with
  | none =>
    rw [hholder, Option.getD_none, CacheRequest.direct, hr.types] at h
    exact bind_of_answer hU h depth
  | some q =>
    rw [hholder, Option.getD_some, CacheRequest.direct] at h
    have hq := hpast q (List.mem_of_find?_eq_some hholder)
    have hkey : q.key = r.key := by
      unfold holder? at hholder
      have hfound := List.find?_some hholder
      exact (of_decide_eq_true hfound).1
    obtain ⟨hshape, hparams, hresult⟩ := Fingerprint.same_signature hU hq hr hkey
    rw [hq.types, hshape] at h
    have hcheck := checkShape_of_compile hU (compile_of_answer h)
    exact bind_of_checkShape (checkShape_congr hparams hresult hcheck) depth

theorem Cache.declines_of_outcome (hprints : r.root.toExpr.prints r.store = true) {past : List CacheEvent}
    {e : CompileFailure} (hsettled : ∀ kind fault, e ≠ .error (.internal kind fault))
    (h : (after options past).outcome r = .error e) : e.isUnsupported = true := by
  rw [(reflects_after past).outcome_eq r] at h
  cases hholder : holder? options (recent past) r.key with
  | none =>
    rw [hholder] at h
    exact declines_of_prints hprints hsettled h
  | some q =>
    -- what is kept was compiled or declined
    rw [hholder] at h
    have hfound := List.find?_some hholder
    exact (of_decide_eq_true hfound).2 e h

/-- **Shapes are accepted alike.** Whatever the options, compiling a tree or walking it where the compiler declines
refuses a shape exactly where the tree cannot be bound to it, and what compiles can be bound. Nor does a cache change
what is accepted, whatever trees over the same types it was asked for before. The text of the tree, which is logged
where the compiler declines, has to end. -/
theorem Strategy.fast_refuses_iff {U : Universe} (hU : U.Declared) (options : Options) :
    (∀ (s : Store) (root : Lambda) (shape : Shape), root.toExpr.prints s = true →
      (∀ kind fault, answer U s options (some root) shape ≠ .error (.error (.internal kind fault))) →
      ((∃ e, Strategy.fast.prepare U s options (some root) shape = .error e) ↔
        ∃ e, bind U (some root) shape defaultDepth = .error (.shape e))) ∧
    (∀ (s : Store) (root : Option Lambda) (shape : Shape) (a : Artifact) (depth : Int),
      answer U s options root shape = .ok a → ∃ p, bind U root shape depth = .ok p) ∧
    ∀ (past : List CacheEvent) (r : CacheRequest), (∀ q ∈ recent past, q.Over U) → r.Over U →
      r.root.toExpr.prints r.store = true →
      (∀ kind fault, (after options past).outcome r ≠ .error (.error (.internal kind fault))) →
      ((∃ e, Strategy.orWalk U ((after options past).outcome r) (some r.root) r.shape = .error e) ↔
        ∃ e, bind U (some r.root) r.shape defaultDepth = .error (.shape e)) := by
  refine ⟨fun s root shape hprints hsettled => ?_, fun s root shape a depth h => bind_of_answer hU h depth, ?_⟩
  · refine Strategy.orWalk_error_iff (fun e h => ?_) fun a h => bind_of_answer hU h _
    exact declines_of_prints hprints (fun kind fault he => hsettled kind fault (he ▸ h)) h
  · intro past r hpast hr hprints hsettled
    refine Strategy.orWalk_error_iff (fun e h => ?_) fun a h => bind_of_outcome hU hpast hr h _
    exact declines_of_outcome hprints (fun kind fault he => hsettled kind fault (he ▸ h)) h

namespace Strategy

def wideningTypes : Universe := (({} : Universe).delegate [.int32] (some .int64)).2

/-- A function that gives its argument as a wider number. -/
def widening : Lambda :=
  { id := 2
    name := "widening"
    params := [⟨1, "x", .int32⟩]
    body := .var ⟨1, "x", .int32⟩
    result := some .int64
    type := .declared 0 }

def wideningRequest (param result : Ty) : CacheRequest :=
  ⟨wideningTypes, {}, widening, ⟨[some param], some result⟩⟩

theorem wideningRequest_over (param result : Ty) : (wideningRequest param result).Over wideningTypes where
  types := rfl
  checked := Expr.checked_of_within 2 (show widening.toExpr.Within (Expr.Proper wideningTypes) 2 by decide +kernel)
  filled := .node trivial (List.forall_mem_singleton.2 (.node trivial fun _ h => nomatch h))

theorem ne_internal_of_settled {c : Except CompileFailure Artifact}
    (h : (match c with | .ok _ => true | .error e => e.isUnsupported) = true) (kind : Kind) (fault : CodegenFault) :
    c ≠ .error (.error (.internal kind fault)) := by
  rintro rfl
  cases h

/-- An object is no argument of the function, and a float can be its result, also where the function was compiled
before. -/
theorem fast_refuses_object :
    (∃ e, fast.prepare wideningTypes {} {} (some widening) ⟨[some .object], some .float64⟩ = .error e) ∧
    (¬∃ e, fast.prepare wideningTypes {} {} (some widening) ⟨[some .int32], some .float64⟩ = .error e) ∧
    ∃ e, orWalk wideningTypes
      ((after {} [.compile (wideningRequest .object .float64)]).outcome (wideningRequest .object .float64))
      (some widening) ⟨[some .object], some .float64⟩ = .error e := by
  obtain ⟨hdirect, -, hcached⟩ := fast_refuses_iff (U := wideningTypes) (.delegate _ _ .empty) {}
  have hrefused : ∃ e, bind wideningTypes (some widening) ⟨[some .object], some .float64⟩
      defaultDepth = .error (.shape e) := ⟨_, rfl⟩
  have hprints : widening.toExpr.prints {} = true := by decide
  refine ⟨(hdirect _ _ _ hprints ?_).2 hrefused, fun h => ?_, ?_⟩
  · exact ne_internal_of_settled (by decide +kernel)
  · have hsettled := ne_internal_of_settled
      (c := answer wideningTypes {} {} (some widening) ⟨[some .int32], some .float64⟩) (by decide +kernel)
    obtain ⟨e, he⟩ := (hdirect _ _ _ hprints hsettled).1 h
    cases he
  · refine (hcached [.compile (wideningRequest .object .float64)] (wideningRequest .object .float64) ?_
      (wideningRequest_over ..) hprints ?_).2 hrefused
    · exact List.forall_mem_singleton.2 (wideningRequest_over ..)
    · exact ne_internal_of_settled (by decide +kernel)

end Strategy

end TreeMachine
