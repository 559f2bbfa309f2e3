import TreeMachine.Proofs.Codegen.Captures
import TreeMachine.Proofs.Machine.Alike

/-!
# Slots used again

Whether sibling scopes share slots makes no difference that a host could see. The code is the same except for
slots, so executions of the two artifacts go hand in hand; a slot that is used again is stored to before it is
read. Returned delegates keep the difference in their code, but do the same whenever they are called.
`Host.noting` makes the calls of host routines part of what is compared.
-/

namespace TreeMachine

open Callable

namespace Host

/-- The host that also writes a line to the trace for each call of one of its routines. -/
def noting (H : Host) (line : Nat → Value → List Value → String) : Host :=
  { H with routines := H.routines.mapIdx fun i r U call self args => do
      modify (·.note (line i self args))
      r U call self args }

theorem Discreet.noting {H : Host} (h : H.Discreet) (line : Nat → Value → List Value → String) :
    (H.noting line).Discreet := by
  intro r hr
  obtain ⟨i, hi, rfl⟩ := Array.mem_mapIdx.1 hr
  intro D hD call call' hcall U self args
  have hnote : (Store.alike D).Agrees () (fun _ _ => True) (modify (·.note (line i self args)) : Exec Unit)
      (modify (·.note (line i self args))) := .modify (fun _ _ => rfl) fun _ _ _ hs => ⟨{ hs with }, rfl⟩
  exact Exec.same_iff.2 (hnote.seq fun _ _ _ _ => Exec.same_iff.1 (h _ (Array.getElem_mem hi) hD hcall U self args))

/-- The host sees no difference between two ends of a call: the value is the same, or the error, and so are
the cells, all other storage and the trace. Delegates at one location do the same when the host calls them. -/
def SeesNoDifference (H : Host) (r r' : EStateM.Result Abort Store Value) : Prop :=
  ∃ D, Caller.Alike D (callDelegate H reentry) (callDelegate H reentry) ∧ OutcomesAlike D Eq r r'

end Host

namespace Compiler

variable {U : Universe} {options : Options} {root : Option Lambda} {shape : Shape} {a b : Artifact}

theorem seesNoDifference_of_alike (h : a.Alike b) {H : Host} (hH : H.Discreet) (args : List Value) (s : Store) :
    H.SeesNoDifference (call H (.artifact a) args s) (call H (.artifact b) args s) :=
  ⟨Delegate.Alike, alike_callDelegate hH reentry, Artifact.same_call hH h args (.refl Delegate.Alike.refl s)⟩

/-- **Using slots again is unobservable.** A tree that is compiled without it is compiled with it, and the
host sees no difference between calls of the artifacts, not even if it notes each call of a routine. Routines
may call delegates and pass them on, but not look into their code. -/
theorem reuse_unobservable (U : Universe) (options : Options) (root : Option Lambda) (shape : Shape) :
    (∀ a, compile U { options with reuseSlots := false } root shape = .ok a →
      ∃ b, compile U { options with reuseSlots := true } root shape = .ok b) ∧
    ∀ a b, compile U { options with reuseSlots := false } root shape = .ok a →
      compile U { options with reuseSlots := true } root shape = .ok b →
      ∀ H : Host, H.Discreet → ∀ args s,
        H.SeesNoDifference (call H (.artifact a) args s) (call H (.artifact b) args s) ∧
        ∀ line, (H.noting line).SeesNoDifference (call (H.noting line) (.artifact a) args s)
          (call (H.noting line) (.artifact b) args s) := by
  have hreuse : ∀ a, compile U { options with reuseSlots := false } root shape = .ok a →
      ∃ b, compile U { options with reuseSlots := true } root shape = .ok b ∧ a.Alike b :=
    fun a ha => compile_alike rfl ha true
  refine ⟨fun a ha => (hreuse a ha).imp fun _ => And.left, fun a b ha hb H hH args s => ?_⟩
  obtain ⟨b', hb', halike⟩ := hreuse a ha
  obtain rfl : b' = b := Except.ok.inj (hb'.symm.trans hb)
  exact ⟨seesNoDifference_of_alike halike hH args s,
    fun line => seesNoDifference_of_alike halike (hH.noting line) args s⟩

/-- A function with two sibling scopes, each with a struct of its own whose property counts how often it was
asked for. -/
def tallyApart : Lambda :=
  let s : Var := ⟨1, "s", .declared 0⟩
  let t : Var := ⟨2, "t", .declared 0⟩
  let getter : Method :=
    { owner := .declared 0, serial := 0, name := "get_P", result := some .int32, body := some (.host 0) }
  let property : Member := .property ⟨"P", some .int32, .declared 0, getter, none⟩
  { id := 3
    name := "tallyApart"
    params := []
    body := .block 4 [] [.block 5 [s] [.member (.var s) property], .block 6 [t] [.member (.var t) property]]
    result := some .int32
    type := .declared 1 }

/-- One slot does for both structs, and the second one starts at zero as it does in a slot of its own. -/
theorem tallyApart_unobservable : ∃ a b : Artifact,
    (compile tallyTypes { reuseSlots := false } (some tallyApart) ⟨[], some .int32⟩ = .ok a ∧ a.main.locals = 2) ∧
    (compile tallyTypes { reuseSlots := true } (some tallyApart) ⟨[], some .int32⟩ = .ok b ∧ b.main.locals = 1) ∧
    tallyHost.Discreet ∧ ∀ s,
      tallyHost.SeesNoDifference (call tallyHost (.artifact a) [] s) (call tallyHost (.artifact b) [] s) ∧
      ∀ line, (tallyHost.noting line).SeesNoDifference (call (tallyHost.noting line) (.artifact a) [] s)
        (call (tallyHost.noting line) (.artifact b) [] s) := by
  have hcompiles : ∀ {r : Except CompileError Artifact} {n : Int}, r.toOption.map (·.main.locals) = some n →
      ∃ a, r = .ok a ∧ a.main.locals = n := by
    rintro (e | a) n h
    · cases h
    · exact ⟨a, rfl, Option.some.inj h⟩
  obtain ⟨a, ha, hla⟩ := hcompiles (r := compile tallyTypes { reuseSlots := false } (some tallyApart) ⟨[], some .int32⟩)
    (n := 2) (by decide +kernel)
  obtain ⟨b, hb, hlb⟩ := hcompiles (r := compile tallyTypes { reuseSlots := true } (some tallyApart) ⟨[], some .int32⟩)
    (n := 1) (by decide +kernel)
  have hH : tallyHost.Discreet := discreet_of_scripts (show _ = [Script.inc "n"].map Script.routine from rfl)
  exact ⟨a, b, ⟨ha, hla⟩, ⟨hb, hlb⟩, hH, fun s =>
    (reuse_unobservable tallyTypes {} (some tallyApart) ⟨[], some .int32⟩).2 a b ha hb tallyHost hH [] s⟩

end Compiler

end TreeMachine
