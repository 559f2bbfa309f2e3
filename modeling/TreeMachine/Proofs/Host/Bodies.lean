import TreeMachine.Host.Script
import TreeMachine.Proofs.Store.Correspondence

/-!
# Methods keep correspondences

The builtin bodies keep every correspondence, and so does each method of a host whose routines do
(`Correspondence.agrees_invoke`). Scripts are such routines, if the values that they write down may be passed
on (`Script.Writes.routines`).
-/

namespace TreeMachine

namespace Correspondence

variable {K : Correspondence} {w w' : K.World} {call call' : Caller} {self : Value} {args : List Value}

abbrev PassesAll (K : Correspondence) (w : K.World) (vs : List Value) : Prop := ∀ v ∈ vs, K.Passes w v

def Callers (K : Correspondence) (call call' : Caller) : Prop :=
  ∀ ⦃w : K.World⦄ ⦃d d' : Delegate⦄ ⦃args : List Value⦄, K.Delegates w d d' → K.PassesAll w args →
    K.Agrees w K.Passes (call d args) (call' d' args)

/-- The routine keeps the correspondence, with the two ways to run delegates. -/
def Routines (K : Correspondence) (U : Universe) (call call' : Caller) (r : Routine) : Prop :=
  ∀ ⦃w : K.World⦄ ⦃self : Value⦄ ⦃args : List Value⦄, K.Passes w self → K.PassesAll w args →
    K.Agrees w K.Passes (r U call self args) (r U call' self args)

theorem PassesAll.later (h : K.PassesAll w args) (hw : K.Later w w') : K.PassesAll w' args :=
  fun v hv => K.passes_later hw (h v hv)

theorem PassesAll.head (h : K.PassesAll w args) :
    K.Agrees w K.Passes (Exec.getSome args.head?) (Exec.getSome args.head?) :=
  .getSome fun _ v hw hv => K.passes_later hw (h v (List.mem_of_mem_head? hv))

/-! ## Bodies -/

theorem agrees_compareTo (U : Universe) {other : Value} (hself : K.Passes w self) (hother : K.Passes w other) :
    K.Agrees w K.Passes (Body.compareTo U self other) (Body.compareTo U self other) :=
  (Relates.unboxed hself).seq fun _ _ hw _ => (Relates.unboxed (K.passes_later hw hother)).seq fun _ _ _ _ =>
    .ite (fun _ => .plain rfl) fun _ => .ite (fun _ => .fail rfl) fun _ => .plain rfl

theorem agrees_compareTextTo (self other : Value) :
    K.Agrees w K.Passes (Body.compareTextTo self other) (Body.compareTextTo self other) := by
  unfold Body.compareTextTo
  split
  · exact .plain rfl
  · exact .plain rfl
  · exact .fail rfl

theorem agrees_run {H : Host} (hH : ∀ r ∈ H.routines, K.Routines H.types call call' r) (b : Body)
    (hself : K.Passes w self) (hargs : K.PassesAll w args) :
    K.Agrees w K.Passes (b.run H call self args) (b.run H call' self args) := by
  cases b with
  | objectToString =>
    refine .get_bind fun _ s t _ hst => ?_
    rw [(K.twins hst).text]
    exact .plain rfl
  | objectEquals => exact hargs.head.seq fun _ _ _ _ => .plain rfl
  | objectHashCode => exact .plain rfl
  | valueEquals => exact hargs.head.seq fun _ other _ _ => (Relates.equal self other).seq fun _ _ _ _ => .plain rfl
  | valueHashCode => exact (Relates.hash H.types hself).seq fun _ _ _ _ => .plain rfl
  | scalarCompareTo => exact hargs.head.seq fun _ _ hw hv => agrees_compareTo _ (K.passes_later hw hself) hv
  | stringLength | stringToUpper => exact .plain rfl
  | stringContains => exact hargs.head.seq fun _ _ _ _ => .plain rfl
  | stringCompareTo => exact hargs.head.seq fun _ _ _ _ => agrees_compareTextTo _ _
  | readField index =>
    refine .get_bind fun _ s t _ hst => ?_
    rw [(K.twins hst).fields]
    exact .getSome fun _ v hw hv => K.passes_later hw ((K.holds hst).fields self v (Array.mem_of_getElem? hv))
  | writeField index =>
    refine hargs.head.seq fun _ v _ hv => .get_bind fun _ s t hw hst => ?_
    rw [(K.twins hst).fields]
    exact .ite (fun _ => (Relates.setField self index (K.passes_later hw hv)).seq fun _ _ _ _ => .plain rfl)
      fun _ => .corrupt
  | host routine =>
    show K.Agrees w K.Passes (Body.run H call (.host routine) self args) (Body.run H call' (.host routine) self args)
    rw [Body.run_host, Body.run_host]
    cases hr : H.routines[routine]? with
    | none => exact .corrupt
    | some r => exact hH r (Array.mem_of_getElem? hr) hself hargs

theorem agrees_invoke {H : Host} (hH : ∀ r ∈ H.routines, K.Routines H.types call call' r) (m : Method)
    (hself : K.Passes w self) (hargs : K.PassesAll w args) :
    K.Agrees w K.Passes (H.invoke call m self args) (H.invoke call' m self args) := by
  unfold Host.invoke
  cases m.body with
  | none => exact .fail rfl
  | some b => exact agrees_run hH b hself hargs

end Correspondence

/-! ## Scripts -/

namespace Script

def values : Script → List Value
  | const v => [v]
  | invoke _ vs => vs
  | _ => []

def inner : Script → List Script
  | log _ next => [next]
  | seq parts => parts
  | _ => []

inductive Writes (P : Value → Prop) : Script → Prop
  | node {p : Script} : (∀ v ∈ p.values, P v) → (∀ q ∈ p.inner, Writes P q) → Writes P p

mutual

theorem writes_of_forall {P : Value → Prop} (h : ∀ v, P v) : ∀ p : Script, p.Writes P
  | log _ next => .node (fun v _ => h v) (List.forall_mem_singleton.2 (writes_of_forall h next))
  | seq parts => .node (fun v _ => h v) (writes_inner h parts)
  | get _ | set _ _ | add _ _ | inc _ | const _ | arg _ | self | fail _ _ | panic _ | text _ | sum _ | invoke _ _ =>
    .node (fun v _ => h v) (List.forall_mem_nil _)

theorem writes_inner {P : Value → Prop} (h : ∀ v, P v) : ∀ ps : List Script, ∀ q ∈ ps, q.Writes P
  | [] => List.forall_mem_nil _
  | p :: ps => List.forall_mem_cons.2 ⟨writes_of_forall h p, writes_inner h ps⟩

end

open Correspondence (Relates passes_plain)

variable {K : Correspondence} {w : K.World} {U : Universe} {call call' : Caller} {recv self v : Value}
  {args : List Value}

theorem agrees_argument (hargs : K.PassesAll w args) (i : Int) :
    K.Agrees w K.Passes (argument args i) (argument args i) := by
  refine .getSome fun _ v hw hv => K.passes_later hw ?_
  obtain ⟨n, -, hn⟩ := Option.bind_eq_some_iff.1 hv
  exact hargs v (List.mem_of_getElem? hn)

theorem agrees_fieldIndex (name : String) :
    K.Agrees w (fun _ _ => True) (fieldIndex U self name) (fieldIndex U self name) := by
  refine .get_bind fun _ s t _ hst => ?_
  rw [(K.twins hst).dynamicType]
  exact (Relates.found _).seq fun _ _ _ _ => (Relates.found _).seq fun _ _ _ _ => .result _

theorem agrees_readField (name : String) : K.Agrees w K.Passes (readField U self name) (readField U self name) := by
  refine (agrees_fieldIndex name).seq fun _ i _ _ => .get_bind fun _ s t _ hst => ?_
  rw [(K.twins hst).fields]
  exact .getSome fun _ v hw hv => K.passes_later hw ((K.holds hst).fields self v (Array.mem_of_getElem? hv))

theorem agrees_writeField (name : String) (hv : K.Passes w v) :
    K.Agrees w (fun _ _ => True) (writeField U self name v) (writeField U self name v) := by
  refine (agrees_fieldIndex name).seq fun _ i hw _ => .get_bind fun _ s t hw' hst => ?_
  rw [(K.twins hst).fields]
  exact .ite (fun _ => .setField self i (K.passes_later (K.trans hw hw') hv)) fun _ => .corrupt

theorem passes_integer (wide : Bool) (n : Int64) : K.Passes w (integer wide n) := by
  unfold integer
  split <;> exact passes_plain rfl

theorem agrees_addTo (field : String) (n : Int64) :
    K.Agrees w K.Passes (addTo U self field n) (addTo U self field n) :=
  (agrees_readField field).seq fun _ _ _ _ => (agrees_writeField field (passes_integer _ _)).seq fun _ _ _ _ =>
    .value (passes_integer _ _)

theorem agrees_partText (hargs : K.PassesAll w args) (p : ScriptText) :
    K.Agrees w (fun _ _ => True) (partText U self args p) (partText U self args p) := by
  have htext : ∀ w' v, K.Agrees w' (fun _ _ => True) (do return (← getThe Store).text U v : Exec String)
      (do return (← getThe Store).text U v) := fun w' v => .get_bind fun _ s t _ hst => by
    rw [(K.twins hst).text]
    exact .result _
  cases p with
  | literal s => exact .result _
  | field name => exact (agrees_readField name).seq fun w' v _ _ => htext w' v
  | arg i => exact (agrees_argument hargs i).seq fun w' v _ _ => htext w' v

theorem agrees_partTexts (hargs : K.PassesAll w args) (ps : List ScriptText) :
    K.Agrees w (fun _ _ => True) (ps.mapM (partText U self args)) (ps.mapM (partText U self args)) := by
  induction ps generalizing w with
  | nil => exact .result _
  | cons p ps ih =>
    rw [List.mapM_cons]
    exact (agrees_partText hargs p).seq fun _ _ hw _ => (ih (hargs.later hw)).seq fun _ _ _ _ => .result _

def AgreesOn (K : Correspondence) (U : Universe) (call call' : Caller) (p : Script) : Prop :=
  ∀ ⦃w : K.World⦄ ⦃recv self : Value⦄ ⦃args : List Value⦄, K.Passes w recv → K.Passes w self →
    K.PassesAll w args → K.Agrees w K.Passes (runOn U call recv self args p) (runOn U call' recv self args p)

theorem agrees_runAll {ps : List Script} (hps : ∀ p ∈ ps, AgreesOn K U call call' p) {last : Value}
    (hrecv : K.Passes w recv) (hself : K.Passes w self) (hargs : K.PassesAll w args) (hlast : K.Passes w last) :
    K.Agrees w K.Passes (runAll U call recv self args last ps) (runAll U call' recv self args last ps) := by
  induction ps generalizing w last with
  | nil => exact .value hlast
  | cons p ps ih =>
    obtain ⟨hp, hps⟩ := List.forall_mem_cons.1 hps
    exact (hp hrecv hself hargs).seq fun _ _ hw hv =>
      ih hps (K.passes_later hw hrecv) (K.passes_later hw hself) (hargs.later hw) hv

namespace Writes

variable {p : Script} {P : Value → Prop}

theorem agreesOn (h : p.Writes P) (hP : ∀ v, P v → ∀ w, K.Passes w v) (hcall : K.Callers call call') :
    AgreesOn K U call call' p := by
  induction h with
  | @node p hvalues _ ih =>
    intro w recv self args hrecv hself hargs
    cases p with
    | get field => exact agrees_readField field
    | set field i =>
      exact (agrees_argument hargs i).seq fun _ _ _ hv => (Relates.clone hv).seq fun _ _ _ hu =>
        (agrees_writeField field hu).seq fun _ _ _ _ => .plain rfl
    | add field i =>
      exact (agrees_argument hargs i).seq fun _ _ _ _ => (agrees_addTo field _).seq fun _ _ _ _ => .plain rfl
    | inc field => exact agrees_addTo field 1
    | const v => exact .value (hP v (hvalues v (by simp [values])) w)
    | arg i => exact agrees_argument hargs i
    | self => exact .value hrecv
    | fail s message => exact .fail rfl
    | panic message => exact .panic fun _ => rfl
    | text parts => exact (agrees_partTexts hargs parts).seq fun _ _ _ _ => .plain rfl
    | sum wide => exact .value (passes_integer _ _)
    | log label next =>
      have hnote : K.Agrees w (fun _ _ => True) (modify fun s => s.note label : Exec Unit)
        (modify fun s => s.note label) :=
        .modify (fun _ _ => rfl) fun _ _ _ hs => ⟨{ hs with }, rfl⟩
      exact hnote.seq fun _ _ hw _ =>
        ih next (by simp [inner]) (K.passes_later hw hrecv) (K.passes_later hw hself) (hargs.later hw)
    | seq parts => exact agrees_runAll ih hrecv hself hargs (passes_plain rfl)
    | invoke i values =>
      refine (agrees_argument hargs i).seq fun _ v _ _ => .get_bind fun w₁ s t _ hst => ?_
      -- the argument is no delegate in both stores, or related delegates
      have hdelegates := K.delegate v hst
      generalize s.delegate? v = o at hdelegates
      generalize t.delegate? v = o' at hdelegates
      cases hdelegates with
      | none => exact .corrupt
      | some hdd => exact hcall hdd fun v hv => hP v (hvalues v hv) w₁

theorem routines (h : p.Writes P) (hP : ∀ v, P v → ∀ w, K.Passes w v) (hcall : K.Callers call call') :
    K.Routines U call call' p.routine :=
  fun _ _ _ hself hargs => (Relates.unboxed hself).seq fun _ _ hw hv =>
    h.agreesOn hP hcall (K.passes_later hw hself) hv (hargs.later hw)

end Writes

end Script

end TreeMachine
