import TreeMachine.Host.Script
import TreeMachine.Proofs.Codegen.Captures
import TreeMachine.Proofs.Store.Matching
import TreeMachine.Proofs.Types.Dispatch
import TreeMachine.Walk.Eval

/-!
# Calls on values and on their boxes

A method can be called on a value of a value type, where the implementation is known from the type, or on a box around
the value, where it is looked up. An implementation of the type itself gets the payload of the box, and one that is
inherited gets the box. None can tell:

* **`Body.Alike.boxed`**: what is inherited does with the box what it would do with the payload.
* **`Body.agree_run`**: on a value and on its copy, a body gives results that match and leaves matching contents.
  Routines of the host do so by assumption (`Host.Uniform`).
* **`boxed_call_agrees`**: so calls agree, whether they are evaluated or carried out by the instructions that are
  compiled for them.
* **`Compiler.rawConstant_changes`**: a call can change what a constant holds.
-/

open Option Array

namespace TreeMachine

open Store (Matches)
open Machine Codegen Universe Walk Exec TreeMachine.EStateM

/-! ## Results that match -/

namespace Exec

/-- Both runs give values that match, or fail in the same way, and end in stores that `R` relates. -/
inductive Agree (N : Nat) (R : Store → Store → Prop) :
    EStateM.Result Abort Store Value → EStateM.Result Abort Store Value → Prop
  | ok {x y : Value} {s t : Store} : s.Matches N t x y → R s t → Agree N R (.ok x s) (.ok y t)
  | error {e : Abort} {s t : Store} : R s t → Agree N R (.error e s) (.error e t)

variable {N : Nat} {R R' : Store → Store → Prop} {x y : Exec Value} {s t : Store}

theorem Agree.imp {r r' : EStateM.Result Abort Store Value} (h : Agree N R r r') (hR : ∀ s t, R s t → R' s t) :
    Agree N R' r r' := by
  cases h with
  | ok hm h => exact .ok hm (hR _ _ h)
  | error h => exact .error (hR _ _ h)

theorem Agree.mapError {f : Error → Error} (h : Agree N R (x s) (y t)) :
    Agree N R (Exec.mapError f x s) (Exec.mapError f y t) := by
  unfold Exec.mapError
  generalize x s = r, y t = r' at h
  cases h with
  | ok hm h => exact .ok hm h
  | @error e _ _ h => cases e <;> exact .error h

theorem map_congr {α β : Type} {f : α → β} {x y : Exec α} (h : x s = y s) : (f <$> x) s = (f <$> y) s := by
  show EStateM.map f x s = EStateM.map f y s
  unfold EStateM.map
  rw [h]

theorem Agree.bind {f g : Value → Exec Value} (h : Agree N R (x s) (y t))
    (hf : ∀ {x y s t}, s.Matches N t x y → R s t → Agree N R' (f x s) (g y t)) (hR : ∀ s t, R s t → R' s t) :
    Agree N R' ((x >>= f) s) ((y >>= g) t) := by
  show Agree N R' (EStateM.bind x f s) (EStateM.bind y g t)
  unfold EStateM.bind
  generalize x s = r, y t = r' at h
  cases h with
  | ok hm h => exact hf hm h
  | error h => exact .error (hR _ _ h)

end Exec


/-! ## Deterministic routines -/

def Store.KeepsBoxes (s s' : Store) : Prop := ∀ (loc : Loc) (p : Value),
  s.boxes[loc]? = some p → s'.boxes[loc]? = some p

variable {s : Store} {v : Value}

theorem Store.keepsBoxes_setField {x : Value} {i : Nat} : s.KeepsBoxes (s.setField v i x) := by
  intro loc p hp
  unfold setField setFieldOf
  split <;> exact hp

/-- The routine is a function of what its receiver holds and of its arguments: where the receiver is a scalar or a
struct, it does with a copy of the receiver what it does with the receiver. The calls that are looked at are those in
`K`, which can say that the arguments are not in the receiver. -/
def Routine.Uniform (K : Store → Value → List Value → Prop) (U : Universe) (call : Caller) (r : Routine) : Prop :=
  ∀ {s t : Store} {v p : Value} {args : List Value}, v.datum.isInline = true → s.Grounded v → s.Expands t →
    s.Copied t v p → K s v args → K t p args →
    Agree s.boxes.size (fun s' t' => s'.Matches s.boxes.size t' v p ∧ t.KeepsBoxes t') (r U call v args s)
      (r U call p args t)

def Host.Uniform (K : Store → Value → List Value → Prop) (H : Host) (call : Caller) : Prop :=
  ∀ r ∈ H.routines, r.Uniform K H.types call

/-! ## A value and its copy -/

/-- In a store that expanded the heap, `p` is a copy of the value `v` of the value type `T`, with storage of its own. -/
structure Heap.Twin {U : Universe} {F : Delegate → Signature → Prop} (w : Heap U F) (t : Store) (T : Ty)
    (v p : Value) : Prop where
  value : U.isValue T = true
  hasType : w.HasType v (some T)
  grounded : w.store.Grounded v
  expands : w.store.Expands t
  copied : w.store.Copied t v p
  fresh : ∀ loc, p.datum = .aggregate loc → w.store.aggregates.size ≤ loc

namespace Heap

variable {U : Universe} {F : Delegate → Signature → Prop} {w : Heap U F} {t : Store} {T : Ty} {v p x : Value} {i : Nat}
  {loc : Loc}

theorem Typed.twin_box (hU : U.Declared) (hs : U.Stratified) (hw : w.Typed) (hT : U.isValue T = true)
    (hv : w.HasType v (some T)) : w.Twin (Store.box v w.store).2 T v (Store.clone v w.store).1 := by
  have hgrounded := hw.grounded hU hs hv.1
  have hgrows := Store.Expands.of_grows (.clone v w.store)
  refine ⟨hT, hv, hgrounded, hgrows.trans (.wrap _ _),
    (Store.copied_clone hgrounded.sited.nests).congr rfl rfl, fun loc hloc => ?_⟩
  exact (Store.sitedFrom_clone hgrounded.sited).le ⟨_, .self _, hloc⟩

namespace Twin

variable (h : w.Twin t T v p)
include h

theorem isInline : v.datum.isInline = true := h.hasType.isInline h.value

theorem isInline_copy : p.datum.isInline = true := h.copied.isInline h.grounded h.isInline

theorem not_occupies (hU : U.Declared) (hs : U.Stratified) (hw : w.Typed) {f : Field}
    (hf : (U.layout T)[i]? = some f) (hx : w.HasType x (some f.type)) :
    (∀ loc, v.datum = .aggregate loc → ¬w.store.Occupies x loc) ∧
      ∀ loc, p.datum = .aggregate loc → ¬t.Occupies x loc := by
  have hgrounded := hw.grounded hU hs hx.1
  refine ⟨fun loc hloc hocc => ?_, fun loc hloc hocc => ?_⟩
  · -- the receiver is of a type that was declared after those of the structs in its fields
    obtain ⟨y, hin, hy⟩ := hocc
    obtain ⟨top, htop, -⟩ := hin.reaches hy
    obtain ⟨type, d⟩ := v
    subst hloc
    obtain ⟨_, hT, -, hagg, -, hnominal⟩ := h.hasType.aggregate
    cases hT
    obtain ⟨k, rfl⟩ := hU.eq_declared_of_aggregate hagg
    rw [hU.layout_of_aggregate hagg] at hf
    obtain ⟨type', d'⟩ := x
    subst htop
    obtain ⟨_, hu, -, hagg', -, hnominal'⟩ := hx.aggregate
    cases hu
    obtain ⟨j, hj, htype⟩ := hs k f (List.mem_of_getElem? hf) hagg'
    rw [htype] at hnominal'
    obtain ⟨j', hj', hsame⟩ := hw.nominal_of_inlines hU hs hin hy hx.1 rfl hnominal'
    cases hnominal.symm.trans hsame
    omega
  · -- the storage of the copy is new
    obtain ⟨y, hin, hy⟩ := hocc
    have hlt := hgrounded.sited.lt ⟨y, hgrounded.sited.inlines h.expands hin, hy⟩
    exact Nat.not_lt.2 (h.fresh loc hloc) hlt

end Twin

theorem Typed.unboxed_expands (hw : w.Typed) (hx : w.Proper x) (ht : w.store.Expands t) :
    t.unboxed x = w.store.unboxed x := by
  by_cases hbox : ∃ loc, x.datum = .box loc
  · obtain ⟨loc, hloc⟩ := hbox
    unfold Proper at hx
    rw [hloc] at hx
    obtain ⟨q, u, hq, -⟩ := hw _ hx.1
    rw [Store.unboxed_of_box hloc hq, Store.unboxed_of_box hloc (ht.boxes hq)]
  · have hne : ∀ loc, x.datum ≠ .box loc := fun loc hloc => hbox ⟨loc, hloc⟩
    rw [Store.unboxed_of_ne hne, Store.unboxed_of_ne hne]

end Heap

/-! ## Fields of scalars and structs -/

namespace Store

variable {s t : Store} {v p x y : Value} {i : Nat} {loc : Loc} {r : Record}

theorem fields_of_aggregate (h : v.datum = .aggregate loc) (hr : s.aggregates[loc]? = some r) :
    s.fields v = r.fields := by
  unfold fields
  rw [h]
  exact congrArg (fun o => (o.map (·.fields)).getD #[]) hr

theorem Copied.fields (h : s.Copied t v p) (hv : s.Grounded v) (hin : v.datum.isInline = true) :
    (t.fields p).size = (s.fields v).size ∧
      ∀ (i : Nat) (x y : Value), (s.fields v)[i]? = some x → (t.fields p)[i]? = some y →
        s.Grounded x ∧ s.Copied t x y := by
  cases hv with
  | leaf hne =>
    obtain rfl := h.eq_of_ne hne
    rw [(fields_of_scalar hin hne).1, (fields_of_scalar hin hne).1]
    exact ⟨rfl, fun i x y hx => by cases hx⟩
  | struct hd hr hfields =>
    obtain ⟨loc', r', rfl, hr', -, hsize, hcopies⟩ := h.of_struct hd hr
    rw [fields_of_aggregate hd hr, fields_of_aggregate rfl hr']
    exact ⟨hsize, fun i x y hx hy => ⟨hfields x (mem_of_getElem? hx), hcopies i x y hx hy⟩⟩

end Store

/-! ## Bodies -/

theorem Value.sameRef_of_isInline (h : v.datum.isInline = true) (x : Value) : v.sameRef x = false := by
  unfold sameRef
  cases hd : v.datum with
  | bool | int | float | aggregate => rfl
  | _ =>
    rw [hd] at h
    cases h

theorem Value.str_of_isInline (h : v.datum.isInline = true) : v.str = "" := by
  unfold str Datum.str
  split
  · rename_i hd
    rw [hd] at h
    cases h
  · rfl

theorem Datum.hasIdentity_of_isInline {d : Datum} (h : d.isInline = true) : d.hasIdentity = false := by
  cases d <;> first | rfl | cases h

/-- What a builtin body asks of its receiver, and of arguments together with it. -/
structure Body.Alike (U : Universe) (args : List Value) (s t : Store) (v q : Value) : Prop where
  str : q.str = v.str
  text : t.text U q = s.text U v
  hash : t.hash U q = s.hash U v
  type : (t.unboxed q).type = (s.unboxed v).type
  compare : ∀ y, Body.compareScalars U (t.unboxed q) y = Body.compareScalars U (s.unboxed v) y
  sameRef : ∀ x ∈ args, q.sameRef x = v.sameRef x
  equal : ∀ x ∈ args, t.equal q x = s.equal v x
  compares : ∀ x ∈ args, t.compares q x = s.compares v x
  nests : s.nests (s.unboxed v) = true
  nests_copy : t.nests (t.unboxed q) = true
  unboxed : ∀ x ∈ args, t.unboxed x = s.unboxed x
  identity : v.datum.hasIdentity = false
  identity_copy : q.datum.hasIdentity = false

namespace Body

variable {H : Host} {call : Caller} {N : Nat} {R : Store → Store → Prop} {s t : Store} {v p q : Value}
  {args : List Value} {b : Body} {m : Method} {loc : Loc}

theorem Alike.agree_run (h : Alike H.types args s t v q) (hb : b.isForeign = false) (hR : R s t) :
    Agree N R (b.run H call v args s) (b.run H call q args t) := by
  -- the results are scalars and texts
  have hbool : ∀ {c d : Bool}, d = c → Agree N R (.ok (.ofBool c) s) (.ok (.ofBool d) t) := by
    rintro c _ rfl
    exact .ok (.leaf nofun nofun) hR
  have hint : ∀ {m n : Int64}, n = m → Agree N R (.ok (.ofInt32 m) s) (.ok (.ofInt32 n) t) := by
    rintro m _ rfl
    exact .ok (.leaf nofun nofun) hR
  have htext : ∀ {x y : String}, y = x → Agree N R (.ok (.ofString x) s) (.ok (.ofString y) t) := by
    rintro x _ rfl
    exact .ok (.leaf nofun nofun) hR
  -- a body that needs an argument ends the execution where there is none
  have hhead : ∀ {f g : Value → Exec Value}, (∀ x ∈ args, Agree N R (f x s) (g x t)) →
      Agree N R ((Exec.getSome args.head? >>= f) s) ((Exec.getSome args.head? >>= g) t) := by
    intro f g hfg
    cases args with
    | nil => exact .error hR
    | cons x _ => exact hfg x List.mem_cons_self
  cases b with
  | objectToString => exact htext h.text
  | objectEquals => exact hhead fun x hx => hbool (h.sameRef x hx)
  | objectHashCode => exact hint (by simp only [h.identity, h.identity_copy, Bool.false_eq_true, if_false])
  | valueEquals =>
    refine hhead fun x hx => ?_
    rw [Exec.equal_bind, Exec.equal_bind, h.compares x hx, h.equal x hx]
    split
    · exact hbool rfl
    · exact .error hR
  | valueHashCode =>
    show Agree N R ((Exec.hash H.types v >>= fun x => pure (.ofInt32 x.toUInt64.toInt64)) s)
      ((Exec.hash H.types q >>= fun x => pure (.ofInt32 x.toUInt64.toInt64)) t)
    rw [Exec.hash_bind h.nests, Exec.hash_bind h.nests_copy, h.hash]
    cases s.hash H.types v with
    | none => exact .error hR
    | some x => exact hint rfl
  | scalarCompareTo =>
    refine hhead fun x hx => ?_
    show Agree N R
      ((if (s.unboxed x).isNil then pure (ofInt 1)
        else if (s.unboxed x).type != (s.unboxed v).type then Exec.fail (.wrongArgument (s.unboxed v).type)
        else pure (ofInt (compareScalars H.types (s.unboxed v) (s.unboxed x))) : Exec Value) s)
      ((if (t.unboxed x).isNil then pure (ofInt 1)
        else if (t.unboxed x).type != (t.unboxed q).type then Exec.fail (.wrongArgument (t.unboxed q).type)
        else pure (ofInt (compareScalars H.types (t.unboxed q) (t.unboxed x))) : Exec Value) t)
    rw [h.unboxed x hx, h.type, h.compare]
    split
    · exact hint rfl
    · split
      · exact .error hR
      · exact hint rfl
  | stringLength => exact hint (congrArg (fun x : String => Int64.ofNat x.length) h.str)
  | stringToUpper => exact htext (congrArg Text.upper h.str)
  | stringContains => exact hhead fun x _ => hbool (congrArg (Text.contains · x.str) h.str)
  | stringCompareTo =>
    refine hhead fun x _ => ?_
    unfold compareTextTo
    rw [h.str]
    cases x.datum with
    | null => exact hint rfl
    | text => exact hint rfl
    | _ => exact .error hR
  | readField | writeField | host => cases hb

theorem Alike.boxed (h : Alike H.types args s t v p) (hq : q.datum = .box loc) (hp : t.boxes[loc]? = some p)
    (hv : v.datum.isInline = true) (hin : p.datum.isInline = true) (hargs : ∀ x ∈ args, x.datum ≠ .box loc) :
    Alike H.types args s t v q := by
  have hne := Datum.ne_box_of_isInline hin
  have hunboxed : t.unboxed q = t.unboxed p := by rw [Store.unboxed_of_box hq hp, Store.unboxed_of_ne hne]
  refine ⟨?_, ?_, ?_, hunboxed ▸ h.type, hunboxed ▸ h.compare, fun x hx => ?_, fun x hx => ?_, fun x hx => ?_,
    h.nests, hunboxed ▸ h.nests_copy, h.unboxed, h.identity, by rw [hq]; rfl⟩
  · rw [Value.str_of_isInline hv, Value.str, hq]
    rfl
  · rw [Store.text_of_box hq hp hne, h.text]
  · rw [← h.hash, Store.hash, Store.hash, hunboxed]
  · rw [Value.sameRef_of_isInline hv, Value.sameRef, hq]
    exact decide_eq_false fun heq => hargs x hx heq.symm
  · rw [← h.equal x hx, Store.equal, Store.equal, Store.equalAt_congr hunboxed rfl]
  · rw [← h.compares x hx, Store.compares, Store.compares, Store.descends, Store.descends, Store.compared,
      Store.compared, hunboxed]

end Body

variable {U : Universe} {t : Store} {p : Value}

theorem Store.Copied.compareScalars (h : s.Copied t v p) (hv : s.Grounded v) (y : Value) :
    Body.compareScalars U p y = Body.compareScalars U v y := by
  cases hv with
  | leaf hne => rw [h.eq_of_ne hne]
  | struct hd hr =>
    obtain ⟨loc', r', rfl, -⟩ := h.of_struct hd hr
    obtain ⟨type, d⟩ := v
    subst hd
    rfl

theorem Store.Copied.dynamicType (h : s.Copied t v p) (hv : s.Grounded v) (hin : v.datum.isInline = true) :
    t.dynamicType p = s.dynamicType v := by
  cases hv with
  | leaf hne =>
    obtain rfl := h.eq_of_ne hne
    unfold Store.dynamicType
    cases hd : p.datum with
    | aggregate loc => exact absurd hd (hne loc)
    | box | object =>
      rw [hd] at hin
      cases hin
    | _ => rfl
  | struct hd hr =>
    obtain ⟨loc', r', rfl, hr', htype, -⟩ := h.of_struct hd hr
    unfold Store.dynamicType
    rw [hd]
    show (t.aggregates[loc']?).bind Record.type = (s.aggregates[_]?).bind Record.type
    rw [hr, hr', bind_some, bind_some, htype]

theorem Store.Copied.asInt (h : s.Copied t v p) (hv : s.Grounded v) : p.asInt U = v.asInt U := by
  cases hv with
  | leaf hne => rw [h.eq_of_ne hne]
  | struct hd hr =>
    obtain ⟨loc', r', rfl, -⟩ := h.of_struct hd hr
    obtain ⟨type, d⟩ := v
    subst hd
    rfl

section

variable {H : Host} {F : Delegate → Signature → Prop} {w : Heap H.types F} {call : Caller}
  {K : Store → Value → List Value → Prop} {t : Store} {T : Ty} {v p x : Value} {args : List Value} {m : Method}
  {i : Nat}

theorem Heap.Twin.alike (hU : H.types.Declared) (hs : H.types.Stratified) (hw : w.Typed) (h : w.Twin t T v p)
    (hargs : ∀ x ∈ args, w.Proper x) : Body.Alike H.types args w.store t v p := by
  have hv := h.isInline
  have hp := h.isInline_copy
  have hne := Datum.ne_box_of_isInline hv
  have hne' := Datum.ne_box_of_isInline hp
  have hsited := (h.copied.matches h.grounded).sited
  have hself : ∀ x ∈ args, w.store.Copied t x x := fun x hx => (hw.grounded hU hs (hargs x hx)).sited.copied h.expands
  refine
    { str := by rw [Value.str_of_isInline hv, Value.str_of_isInline hp]
      text := h.copied.text hsited.1 hv
      hash := h.copied.hash hsited.1 hsited.2 h.expands hne hne'
      type := ?_
      compare := fun y => ?_
      sameRef := fun x _ => by rw [Value.sameRef_of_isInline hv, Value.sameRef_of_isInline hp]
      equal := fun x hx => hw.equal_copied hU hs h.expands h.hasType.1 (hargs x hx) h.copied (hself x hx)
      compares := fun x hx => hw.compares_copied hU hs h.expands h.hasType.1 (hargs x hx) h.copied (hself x hx)
      nests := by rw [Store.unboxed_of_ne hne]; exact hsited.1.nests
      nests_copy := by rw [Store.unboxed_of_ne hne']; exact hsited.2.nests
      unboxed := fun x hx => hw.unboxed_expands (hargs x hx) h.expands
      identity := Datum.hasIdentity_of_isInline hv
      identity_copy := Datum.hasIdentity_of_isInline hp }
  · rw [Store.unboxed_of_ne hne, Store.unboxed_of_ne hne', h.copied.type_eq]
  · rw [Store.unboxed_of_ne hne, Store.unboxed_of_ne hne', h.copied.compareScalars h.grounded]

namespace Body

theorem agree_readField {R : Store → Store → Prop} (h : w.Twin t T v p) (hR : R w.store t) :
    Agree w.store.boxes.size R ((readField i).run H call v args w.store) ((readField i).run H call p args t) := by
  obtain ⟨hsize, hfields⟩ := h.copied.fields h.grounded h.isInline
  show Agree _ R (getSome (w.store.fields v)[i]? w.store) (getSome (t.fields p)[i]? t)
  cases hx : (w.store.fields v)[i]? with
  | none =>
    have hy : (t.fields p)[i]? = none := by
      rw [Array.getElem?_eq_none_iff] at hx ⊢
      omega
    rw [hy]
    exact .error hR
  | some x =>
    have hi := (Array.getElem?_eq_some_iff.1 hx).1
    obtain ⟨y, hy⟩ : ∃ y, (t.fields p)[i]? = some y := ⟨_, Array.getElem?_eq_getElem (hsize ▸ hi)⟩
    obtain ⟨hgrounded, hcopied⟩ := hfields i x y hx hy
    rw [hy]
    exact .ok (hcopied.matches hgrounded) hR

theorem agree_writeField (hU : H.types.Declared) (hs : H.types.Stratified) (hw : w.Typed) (h : w.Twin t T v p)
    {f : Field} (hf : (H.types.layout T)[i]? = some f) (hx : w.HasType x (some f.type)) :
    Agree w.store.boxes.size (fun s' t' => s'.Matches w.store.boxes.size t' v p ∧ t.KeepsBoxes t')
      ((writeField i).run H call v [x] w.store) ((writeField i).run H call p [x] t) := by
  obtain ⟨hsize, -⟩ := h.copied.fields h.grounded h.isInline
  obtain ⟨hout, hout'⟩ := h.not_occupies hU hs hw hf hx
  have hgrounded := hw.grounded hU hs hx.1
  show Agree _ _
    ((if i < (w.store.fields v).size then do modify (·.setField v i x); pure .nil else corrupt : Exec Value)
      w.store)
    ((if i < (t.fields p).size then do modify (·.setField p i x); pure .nil else corrupt : Exec Value) t)
  rw [hsize]
  split
  · exact .ok (.leaf nofun nofun) ⟨h.copied.matches_setField h.grounded h.isInline (hgrounded.sited.copied h.expands)
      hgrounded hout hout', Store.keepsBoxes_setField⟩
  · exact .error ⟨h.copied.matches h.grounded, fun _ _ hq => hq⟩

theorem agree_run {b : Body} (hU : H.types.Declared) (hs : H.types.Stratified) (hw : w.Typed) (hH : H.Uniform K call)
    (h : w.Twin t T v p) (hb : b.Serves (H.types.layout T) m) (hargs : w.HaveTypes args m.params)
    (hK : K w.store v args) (hK' : K t p args) :
    Agree w.store.boxes.size (fun s' t' => s'.Matches w.store.boxes.size t' v p ∧ t.KeepsBoxes t')
      (b.run H call v args w.store) (b.run H call p args t) := by
  have hR : w.store.Matches w.store.boxes.size t v p ∧ t.KeepsBoxes t := ⟨h.copied.matches h.grounded, fun _ _ hq => hq⟩
  cases hforeign : b.isForeign with
  | false => exact (h.alike hU hs hw hargs.proper).agree_run hforeign hR
  | true =>
    cases b with
    | readField i => exact agree_readField h hR
    | writeField i =>
      obtain ⟨-, f, hf, hparams, -⟩ := hb
      rw [hparams] at hargs
      cases hargs with
      | cons hx hrest =>
        cases hrest
        exact agree_writeField hU hs hw h hf hx
    | host n =>
      rw [run_host, run_host]
      cases hr : H.routines[n]? with
      | none => exact .error hR
      | some r => exact hH r (mem_of_getElem? hr) h.isInline h.grounded h.expands h.copied hK hK'
    | _ => cases hforeign

end Body

end

/-! ## Calls -/

namespace Universe

variable {U : Universe} {T u : Ty} {m impl : Method}

theorem Declared.resolve_of_boxesTo (hU : U.Declared) (hbox : U.boxesTo T u = true) (hm : m ∈ (U.decl u).methods)
    (hs : m.isStatic = false) : ∃ impl, U.resolve T m = some impl ∧ U.Implementation T m impl := by
  obtain rfl : m.owner = u :=
    (hU.allTraced u (knows_of_storage (target_of_boxesTo hbox))).owner m hm
  exact hU.resolve_of_is (isInterface_of_isValue (isValue_of_boxesTo hbox)) hm hs (.of_boxesTo hU hbox)

/-- Only the methods of a value type itself have bodies of the host. -/
theorem Implementation.owner_of_foreign (hU : U.Declared) (h : U.Implementation T m impl) (hT : U.isValue T = true)
    {b : Body} (hb : impl.body = some b) (hforeign : b.isForeign = true) : impl.owner = T := by
  rcases hU.traced_or impl.owner with ⟨-, htraced⟩ | hd
  · obtain ⟨i, hi⟩ := htraced.foreign impl h.declared b hb hforeign
    rcases h.owner with hchain | hbuiltin
    · rcases List.mem_cons.1 hchain with heq | hbase
      · exact heq
      · -- the bases of a value type are builtin
        rcases hU.traced_or T with ⟨hk, -⟩ | hd
        · rw [hU.lineage_of_value hk hT, hi] at hbase
          split at hbase <;> simp at hbase
        · rw [hd] at hbase
          cases hbase
    · exact absurd hi (hbuiltin i)
  · have hmem := h.declared
    rw [Declares, hd] at hmem
    cases hmem

end Universe

namespace Walk

variable {ctx : Context} {static : Option Ty} {self : Value} {m impl : Method} {args : List Value} {s t : Store}
  {N : Nat} {R : Store → Store → Prop} {x y : Value}

theorem invoke_eq (hs : m.isStatic = false) (hnil : self.isNil = false)
    (himpl : ctx.types.resolveOf (if static.any ctx.types.isValue then static else s.dynamicType self) m =
      some (some impl)) : invoke ctx static self m args s =
      invoke.run ctx m args impl (if ctx.types.isValue impl.owner then s.unboxed self else self) s := by
  have himplementation : implementation ctx static self m s = .ok impl s := by
    unfold implementation
    rw [bind_of_ok (show dynamicType self s = .ok (s.dynamicType self) s from rfl), himpl]
    rfl
  unfold invoke
  rw [hs, if_neg Bool.false_ne_true, hnil, if_neg Bool.false_ne_true, bind_of_ok himplementation]
  split <;> rfl

theorem agree_run (h : Agree N R (ctx.host.invoke ctx.call impl x args s) (ctx.host.invoke ctx.call impl y args t))
    (hR : ∀ {s t s' t'}, R s t → s.Expands s' → t.Expands t' → R s' t') :
    Agree N R (invoke.run ctx m args impl x s) (invoke.run ctx m args impl y t) := by
  refine Agree.bind h.mapError (fun {x y s t} hm h => ?_) fun _ _ h => h
  split
  · rw [clone_of_nests hm.sited.1.nests, clone_of_nests hm.sited.2.nests]
    exact .ok hm.clone (hR h (.of_grows (.clone x s)) (.of_grows (.clone y t)))
  · exact .ok (.leaf nofun nofun) h

end Walk

def Frame.calling (f : Frame) (self : Value) (args : List Value) : Frame :=
  { f with stack := f.stack.push self ++ args.toArray }

def Frame.returned (f : Frame) (m : Method) (x : Value) : Frame := if m.result.isSome then f.push x else f

namespace Frame

variable {f : Frame} {self : Value} {args : List Value} {s : Store}

theorem popN_calling : (f.calling self args).popN args.length = pure (args, f.push self) := by
  unfold popN calling push
  generalize f.stack.push self = stack
  have hsize : (stack ++ args.toArray).size - args.length = stack.size := by simp
  rw [if_pos (by simp), hsize]
  simp

theorem peek_calling : (f.calling self args).peek args.length s = .ok self s := by
  have hsize : (f.stack.push self ++ args.toArray).size = f.stack.size + 1 + args.length := by
    rw [size_append, size_push]
    rfl
  have hget : (f.stack.push self ++ args.toArray)[f.stack.size]? = some self := by
    rw [getElem?_append_left (by simp), getElem?_push_size]
  unfold peek calling
  rw [hsize, show f.stack.size + 1 + args.length - 1 - args.length = f.stack.size by omega, hget]
  dsimp only
  rw [if_pos (by omega)]
  rfl

end Frame

namespace Machine

variable {ctx : Context} {walk : Walk.Context} {f : Frame} {self : Value} {m n impl : Method} {args : List Value}
  {s : Store}

theorem callMethod_calling (hhost : ctx.host = walk.host) (hcall : ctx.call = walk.call) (hsame : n.SameSignature m)
    (hs : m.isStatic = false) (hnil : self.isNil = false) (hlen : args.length = m.params.length) :
    callMethod ctx (f.calling self args) n impl s = (f.returned m <$> invoke.run walk m args impl
        (if walk.types.isValue impl.owner then s.unboxed self else self)) s := by
  have hreceiver : callMethod.receiver ctx n impl (f.push self) s =
      .ok (if walk.types.isValue impl.owner then s.unboxed self else self, f) s := by
    have hpop : (f.push self).pop = pure (self, f) := by
      unfold Frame.pop Frame.push
      simp
    unfold callMethod.receiver
    rw [hsame.isStatic, hs, if_neg Bool.false_ne_true, hpop, pure_bind]
    dsimp only
    rw [hnil, if_neg Bool.false_ne_true, hhost]
    split <;> rfl
  unfold callMethod
  rw [hsame.params, ← hlen, Frame.popN_calling, pure_bind]
  dsimp only
  rw [EStateM.bind_of_ok hreceiver, hhost, hcall, hsame.result]
  unfold invoke.run
  generalize mapError (.inMethod impl) _ = result
  -- the result is pushed behind the copy
  show EStateM.bind result _ s = EStateM.map _ (EStateM.bind result _) s
  unfold EStateM.bind EStateM.map Frame.returned
  dsimp only
  cases result s with
  | ok x t => cases m.result <;> rfl
  | error e t => rfl

end Machine

/-- A call on a reference runs the method if nothing can override it, and looks its implementation up otherwise. -/
theorem Codegen.dispatch_of_reference {T u : Ty} {m impl : Method} (hu : U.isValue u = false)
    (hs : m.isStatic = false) (himpl : U.resolve T m = some impl) : ∃ op target, dispatch U u m = (op, some target) ∧
      (target = impl ∧ callInstruction op target = .call impl ∨
        target = m ∧ callInstruction op target = .callDynamic m) := by
  unfold dispatch
  rw [hs, if_neg Bool.false_ne_true, hu, if_neg Bool.false_ne_true]
  by_cases hi : U.isInterface m.owner = true
  · rw [if_pos hi]
    exact ⟨_, _, rfl, .inr ⟨rfl, rfl⟩⟩
  rw [if_neg hi]
  cases hslot : m.slot with
  | some k => exact ⟨_, _, rfl, .inr ⟨rfl, rfl⟩⟩
  | none =>
    obtain rfl := some.inj ((resolve_of_no_slot (by simpa using hi) hslot).symm.trans himpl)
    exact ⟨_, _, rfl, .inl ⟨rfl, rfl⟩⟩

section

variable {ctx : Walk.Context} {F : Delegate → Signature → Prop} {w : Heap ctx.types F}
  {K : Store → Value → List Value → Prop} {T u : Ty} {m impl : Method} {v b : Value} {args : List Value} {t : Store}

theorem Heap.Typed.boxed (hU : ctx.types.Declared) (hs : ctx.types.Stratified) (hw : w.Typed)
    (hT : ctx.types.isValue T = true) (hv : w.HasType v (some T)) (hboxed : Store.box v w.store = (b, t)) :
    b = ⟨some .object, .box w.store.boxes.size⟩ ∧ t.boxes[w.store.boxes.size]? = some (t.unboxed b) ∧
      w.Twin t T v (t.unboxed b) := by
  have hb : b = ⟨some .object, .box (Store.clone v w.store).2.boxes.size⟩ := (congrArg Prod.fst hboxed).symm
  have ht : t = (Store.wrap (Store.clone v w.store).1 (Store.clone v w.store).2).2 := (congrArg Prod.snd hboxed).symm
  have hsize : (Store.clone v w.store).2.boxes.size = w.store.boxes.size := by
    obtain ⟨rs, hrs⟩ := Store.Grows.clone v w.store
    rw [hrs]
  have hpayload : t.boxes[w.store.boxes.size]? = some (Store.clone v w.store).1 := by
    rw [ht, ← hsize]
    exact getElem?_push_size
  have hunboxed : t.unboxed b = (Store.clone v w.store).1 := Store.unboxed_of_box (by rw [hb, hsize]) hpayload
  rw [hunboxed]
  refine ⟨by rw [hb, hsize], hpayload, ?_⟩
  have htwin := hw.twin_box hU hs hT hv
  rwa [show (Store.box v w.store).2 = t from congrArg Prod.snd hboxed] at htwin

theorem agree_invoke (hU : ctx.types.Declared) (hs : ctx.types.Stratified) (hH : ctx.host.Uniform K ctx.call)
    (hw : w.Typed) (himpl : ctx.types.Implementation T m impl) (hargs : w.HaveTypes args m.params)
    (hbox : b.datum = .box w.store.boxes.size) (hpayload : t.boxes[w.store.boxes.size]? = some (t.unboxed b))
    (htwin : w.Twin t T v (t.unboxed b)) (hK : K w.store v args) (hK' : K t (t.unboxed b) args) :
    Agree w.store.boxes.size (fun s' t' => s'.Matches w.store.boxes.size t' v (t.unboxed b) ∧ t.KeepsBoxes t')
      (ctx.host.invoke ctx.call impl v args w.store)
      (ctx.host.invoke ctx.call impl (if ctx.types.isValue impl.owner then t.unboxed b else b) args t) := by
  have hR : w.store.Matches w.store.boxes.size t v (t.unboxed b) ∧ t.KeepsBoxes t :=
    ⟨htwin.copied.matches htwin.grounded, fun _ _ hq => hq⟩
  unfold Host.invoke
  cases hbody : impl.body with
  | none => exact .error hR
  | some body =>
    dsimp only
    cases howner : ctx.types.isValue impl.owner with
    | true =>
      -- an implementation of the type itself gets the payload
      obtain rfl := himpl.value howner
      have hserves : body.Serves (ctx.types.layout impl.owner) impl := by
        rcases hU.traced_or impl.owner with ⟨-, htraced⟩ | hd
        · rw [layout_eq]
          exact htraced.bodies impl himpl.declared body hbody
        · have hmem := himpl.declared
          rw [Universe.Declares, hd] at hmem
          cases hmem
      exact Body.agree_run hU hs hw hH htwin hserves (himpl.same.params ▸ hargs) hK hK'
    | false =>
      -- an inherited one is builtin
      have hbuiltin : body.isForeign = false := by
        by_contra hforeign
        rw [himpl.owner_of_foreign hU htwin.value hbody (by simpa using hforeign), htwin.value] at howner
        cases howner
      have hfresh : ∀ x ∈ args, x.datum ≠ .box w.store.boxes.size := by
        intro x hx hd
        have hproper := hargs.proper x hx
        unfold Heap.Proper at hproper
        rw [hd] at hproper
        obtain ⟨q, u, hq, -⟩ := hw _ hproper.1
        exact Nat.lt_irrefl _ (Array.getElem?_eq_some_iff.1 hq).1
      exact ((htwin.alike hU hs hw hargs.proper).boxed hbox hpayload htwin.isInline htwin.isInline_copy
        hfresh).agree_run hbuiltin hR

/-- **Calls on a value and on its box agree.** For a method of a type that values of type `T` box to, the call on a
value, bound by its type, and the call on its box, looked up when it is run, run the same implementation. Their results
match or are the same failure, and the value ends with what the payload of the box ends with. The instructions that
are compiled for the two calls do what the evaluator does. -/
theorem boxed_call_agrees (hU : ctx.types.Declared) (hs : ctx.types.Stratified) (hH : ctx.host.Uniform K ctx.call)
    (hw : w.Typed) (hbox : ctx.types.boxesTo T u = true) (hm : m ∈ (ctx.types.decl u).methods)
    (hstatic : m.isStatic = false) (hv : w.HasType v (some T)) (hargs : w.HaveTypes args m.params)
    (hboxed : Store.box v w.store = (b, t)) (hK : K w.store v args) (hK' : K t (t.unboxed b) args) :
    ∃ impl, ctx.types.resolve T m = some impl ∧
      invoke ctx (some T) v m args w.store = invoke.run ctx m args impl v w.store ∧
      invoke ctx (some u) b m args t =
        invoke.run ctx m args impl (if ctx.types.isValue impl.owner then t.unboxed b else b) t ∧
      Agree w.store.boxes.size (fun s' t' => s'.Matches w.store.boxes.size t' v (t'.unboxed b))
        (invoke ctx (some T) v m args w.store) (invoke ctx (some u) b m args t) ∧
      ∃ op target, dispatch ctx.types T m = (.call, some impl) ∧
        dispatch ctx.types u m = (op, some target) ∧
        ∀ (machine : Machine.Context) (f : Frame), machine.host = ctx.host → machine.call = ctx.call →
          execute machine (f.calling v args) (callInstruction .call impl) w.store =
            (f.returned m <$> invoke ctx (some T) v m args) w.store ∧
          execute machine (f.calling b args) (callInstruction op target) t =
            (f.returned m <$> invoke ctx (some u) b m args) t := by
  have hT := isValue_of_boxesTo hbox
  obtain ⟨impl, hresolve, himpl⟩ := hU.resolve_of_boxesTo hbox hm hstatic
  obtain ⟨htype, hnull, -⟩ := hv.type_of_value hT
  obtain ⟨hb, hpayload, htwin⟩ := hw.boxed hU hs hT hv hboxed
  have hdatum : b.datum = .box w.store.boxes.size := congrArg Value.datum hb
  have hnil : v.isNil = false := decide_eq_false hnull
  have hnil' : b.isNil = false := by rw [hb]; rfl
  have hplain : w.store.unboxed v = v := Store.unboxed_of_ne (hv.ne_box_of_value hT)
  -- the dynamic type of the box is the type of the value
  have hdynamic : t.dynamicType b = some T := by
    rw [hb]
    show (t.boxes[w.store.boxes.size]?).bind (·.type) = some T
    rw [hpayload, bind_some, htwin.copied.type_eq, htype]
  have hdirect : invoke ctx (some T) v m args w.store = invoke.run ctx m args impl v w.store := by
    have hcall : invoke ctx (some T) v m args w.store = invoke.run ctx m args impl
        (if ctx.types.isValue impl.owner then w.store.unboxed v else v) w.store :=
      invoke_eq hstatic hnil (by rw [any_some, hT, if_pos rfl, resolveOf, hresolve])
    rwa [hplain, ite_self] at hcall
  have hlooked : invoke ctx (some u) b m args t =
      invoke.run ctx m args impl (if ctx.types.isValue impl.owner then t.unboxed b else b) t := by
    refine invoke_eq hstatic hnil' ?_
    rw [any_some, target_of_boxesTo hbox, if_neg Bool.false_ne_true, hdynamic, resolveOf,
      hresolve]
  refine ⟨impl, hresolve, hdirect, hlooked, ?_, ?_⟩
  · rw [hdirect, hlooked]
    -- the payload stays in the box, also when the result is copied
    have hagree := agree_invoke hU hs hH hw himpl hargs hdatum hpayload htwin hK hK'
    refine (agree_run (R := fun s' t' => s'.Matches w.store.boxes.size t' v (t.unboxed b) ∧
        t'.boxes[w.store.boxes.size]? = some (t.unboxed b)) (hagree.imp fun _ _ h => ⟨h.1, h.2 _ _ hpayload⟩)
      fun h hx hy => ⟨h.1.expands hx hy, hy.boxes h.2⟩).imp fun s' t' h => ?_
    rw [Store.unboxed_of_box hdatum h.2]
    exact h.1
  · have hlen : args.length = m.params.length := hargs.length_eq
    have hbound : dispatch ctx.types T m = (.call, some impl) := by
      unfold dispatch
      rw [hstatic, if_neg Bool.false_ne_true, if_pos hT, hresolve]
    have hrun : ∀ (machine : Machine.Context) (f : Frame) (n : Method), machine.host = ctx.host →
        machine.call = ctx.call → n.SameSignature m → callMethod machine (f.calling b args) n impl t =
          (f.returned m <$> invoke ctx (some u) b m args) t := by
      intro machine f n hhost hcall hsame
      rw [callMethod_calling hhost hcall hsame hstatic hnil' hlen]
      exact map_congr hlooked.symm
    obtain ⟨op, target, hdispatch, hinstruction⟩ :=
      dispatch_of_reference (target_of_boxesTo hbox) hstatic hresolve
    refine ⟨op, target, hbound, hdispatch, fun machine f hhost hcall => ⟨?_, ?_⟩⟩
    · show callMethod machine (f.calling v args) impl impl w.store = _
      rw [callMethod_calling hhost hcall himpl.same hstatic hnil hlen, hplain, ite_self]
      exact map_congr hdirect.symm
    · rcases hinstruction with ⟨rfl, hi⟩ | ⟨rfl, hi⟩
      · rw [hi]
        exact hrun machine f _ hhost hcall himpl.same
      · have hresolve' : machine.host.types.resolve T target = some impl := by rw [hhost]; exact hresolve
        rw [hi, execute_callDynamic (hlen ▸ Frame.peek_calling) hnil' hdynamic hresolve']
        exact hrun machine f _ hhost hcall (.refl _)

end

/-! ## Boxed counters -/

namespace Script

variable {U : Universe} {call : Caller} {s t : Store} {v p x : Value} {f : Field} {field : String} {n : Int64}
  {K : Store → Value → List Value → Prop}

theorem fieldIndex_eq : fieldIndex U v field s =
    getSome (((s.dynamicType v).bind (U.field? · field)).map (·.index)) s := by
  show (getSome (s.dynamicType v) >>= fun t => getSome (U.field? t field) >>= fun f => pure f.index) s = _
  cases s.dynamicType v with
  | none => rfl
  | some t =>
    rw [bind_some]
    show (getSome (U.field? t field) >>= fun f => pure f.index) s = _
    cases U.field? t field <;> rfl

theorem addTo_of_some (hf : (s.dynamicType v).bind (U.field? · field) = some f)
    (hx : (s.fields v)[f.index]? = some x) : addTo U v field n s = .ok (integer (x.type = some .int64) (x.asInt U + n))
      (s.setField v f.index (integer (x.type = some .int64) (x.asInt U + n))) := by
  have hindex : fieldIndex U v field s = .ok f.index s := by
    rw [fieldIndex_eq, hf]
    rfl
  have hread : readField U v field s = .ok x s := by
    unfold readField
    rw [bind_of_ok hindex]
    exact congrArg (fun o => getSome o s) hx
  have hwrite : ∀ y, writeField U v field y s = .ok () (s.setField v f.index y) := by
    intro y
    unfold writeField
    rw [bind_of_ok hindex]
    show (if f.index < (s.fields v).size then _ else _ : Exec Unit) s = _
    rw [if_pos (Array.getElem?_eq_some_iff.1 hx).1]
    rfl
  unfold addTo
  rw [bind_of_ok hread, bind_of_ok (hwrite _)]
  rfl

theorem addTo_of_none (h : ((s.dynamicType v).bind (U.field? · field)).bind (fun f => (s.fields v)[f.index]?) = none) :
    addTo U v field n s = corrupt s := by
  have hread : readField U v field s = corrupt s := by
    show EStateM.bind (fieldIndex U v field) _ s = _
    unfold EStateM.bind
    rw [fieldIndex_eq]
    cases hf : (s.dynamicType v).bind (U.field? · field) with
    | none => rfl
    | some f =>
      rw [hf] at h
      exact congrArg (fun o => getSome o s) h
  show EStateM.bind (readField U v field) _ s = _
  unfold EStateM.bind
  rw [hread]
  rfl

/-- **A script that counts** in a field does so in the receiver and in its copy. -/
theorem uniform_inc : (inc field).routine.Uniform K U call := by
  intro s t v p args hin hgrounded hx hcopied _ _
  have hin' := hcopied.isInline hgrounded hin
  have hrun : ∀ {s : Store} {v : Value}, v.datum.isInline = true →
      (inc field).routine U call v args s = addTo U v field 1 s := by
    intro s v hv
    show (inc field).runOn U call v (s.unboxed v) args s = _
    rw [Store.unboxed_of_ne (Datum.ne_box_of_isInline hv), runOn]
  rw [hrun hin, hrun hin']
  obtain ⟨hsize, hfields⟩ := hcopied.fields hgrounded hin
  have hdynamic := hcopied.dynamicType hgrounded hin
  cases hx : ((s.dynamicType v).bind (U.field? · field)).bind (fun f => (s.fields v)[f.index]?) with
  | none =>
    have hy : ((t.dynamicType p).bind (U.field? · field)).bind (fun f => (t.fields p)[f.index]?) = none := by
      rw [hdynamic]
      rw [bind_eq_none_iff] at hx ⊢
      intro f hf
      have hnone := hx f hf
      rw [Array.getElem?_eq_none_iff] at hnone ⊢
      omega
    rw [addTo_of_none hx, addTo_of_none hy]
    exact .error ⟨hcopied.matches hgrounded, fun _ _ hq => hq⟩
  | some x =>
    obtain ⟨f, hf, hx⟩ := bind_eq_some_iff.1 hx
    obtain ⟨y, hy⟩ : ∃ y, (t.fields p)[f.index]? = some y :=
      ⟨_, Array.getElem?_eq_getElem (hsize ▸ (Array.getElem?_eq_some_iff.1 hx).1)⟩
    obtain ⟨hgx, hxy⟩ := hfields _ x y hx hy
    rw [addTo_of_some hf hx, addTo_of_some (hdynamic ▸ hf) hy, hxy.type_eq, hxy.asInt hgx]
    -- the sum is a number, and lies nowhere
    generalize hsum : integer _ _ = sum
    have hleaf : (∀ loc, sum.datum ≠ .aggregate loc) ∧ ∀ loc, sum.datum ≠ .box loc := by
      rw [← hsum]
      unfold integer
      split <;> exact ⟨fun _ h => (by cases h), fun _ h => (by cases h)⟩
    have hgsum : s.Grounded sum := .leaf hleaf.1 fun loc hloc => absurd hloc (hleaf.2 loc)
    have hout : ∀ (s : Store) loc, ¬s.Occupies sum loc := by
      rintro s loc ⟨z, hin, hz⟩
      obtain ⟨top, htop, -⟩ := hin.reaches hz
      exact hleaf.1 top htop
    refine .ok (.leaf hleaf.1 fun loc hloc => absurd hloc (hleaf.2 loc))
      ⟨hcopied.matches_setField hgrounded hin (hgsum.sited.copied ‹_›) hgsum (fun _ _ => hout s _)
        fun _ _ => hout t _, Store.keepsBoxes_setField⟩

end Script

/-- Something that counts: an interface, and a struct that implements it. -/
def counters : Universe := declareAll {} [
  ⟨"Counting", .interface, [.method "Increment" [] (some .int32) none]⟩,
  ⟨"Counter", .struct, [.field "n" (some .int32), .method "Increment" [] (some .int32) (some 0),
    .implements [some (.declared 0)]]⟩]

def increment : Method := { owner := .declared 0, serial := 0, name := "Increment", result := some .int32 }

def counting : Walk.Context where
  host := { types := counters, routines := #[(Script.inc "n").routine] }
  call _ _ := corrupt
  function := "count"
  maxDepth := 1
  enter _ _ := corrupt

def six : Heap counting.types fun _ _ => False where
  store := { aggregates := #[⟨some (.declared 1), #[.ofInt32 6]⟩] }
  known d := d = .aggregate 0

theorem counters_aggregate : counters.isAggregate (.declared 1) = true := by decide +kernel

theorem six_typed : six.Typed := by
  rintro d rfl
  have hlayout : (counters.layout (.declared 1)).map (fun f => some f.type) = [some .int32] := by decide +kernel
  refine ⟨_, .declared 1, rfl, rfl, counters_aggregate, ?_⟩
  show six.HaveTypes [.ofInt32 6] ((counters.layout (.declared 1)).map fun f => some f.type)
  rw [hlayout]
  exact .cons ((Heap.hasType_scalar_iff (by decide)).2 ⟨rfl, by decide⟩) .nil

theorem counters_stratified : counters.Stratified := by
  have hscalar : ∀ d ∈ counters.decls, ∀ f ∈ d.fields, counters.isAggregate f.type = false := by decide +kernel
  intro i f hf hagg
  change f ∈ (counters.decls.getD i default).fields at hf
  rw [getD_eq_getD_getElem?] at hf
  cases hd : counters.decls[i]? with
  | none =>
    rw [hd] at hf
    cases hf
  | some d =>
    rw [hd] at hf
    rw [hscalar d (mem_of_getElem? hd) f hf] at hagg
    cases hagg

/-- A counter that is called and its box that is called count to seven. -/
theorem six_call_agrees :
    (∃ s, invoke counting (some (.declared 1)) ⟨some (.declared 1), .aggregate 0⟩ increment [] six.store =
      .ok (.ofInt32 7) s) ∧
    Agree 0 (fun s t => s.Matches 0 t ⟨some (.declared 1), .aggregate 0⟩ (t.unboxed ⟨some .object, .box 0⟩))
      (invoke counting (some (.declared 1)) ⟨some (.declared 1), .aggregate 0⟩ increment [] six.store)
      (invoke counting (some (.declared 0)) ⟨some .object, .box 0⟩ increment []
        (Store.box ⟨some (.declared 1), .aggregate 0⟩ six.store).2) := by
  have hhost : counting.host.Uniform (fun _ _ _ => True) counting.call := by
    intro r hr
    obtain rfl : r = (Script.inc "n").routine := by simpa [counting] using hr
    exact Script.uniform_inc (K := fun _ _ _ => True)
  have hdeclared : counting.types.Declared := Universe.Declared.empty.declareAll _
  obtain ⟨impl, -, -, -, hagree, -⟩ := boxed_call_agrees (w := six) (K := fun _ _ _ => True)
    (T := .declared 1) (u := .declared 0) (m := increment) hdeclared counters_stratified hhost six_typed
      (by decide +kernel) (by decide +kernel) rfl
    ((Heap.hasType_aggregate counters_aggregate).2 ⟨_, rfl, rfl, rfl⟩) .nil rfl trivial trivial
  exact ⟨⟨_, rfl⟩, hagree⟩

/-! ## A struct in no box, where a reference is expected -/

namespace Compiler

/-- A struct that counts how often it is asked for its text, a struct with a field that holds anything, and the type
of a function that gives a text. -/
def holderTypes : Universe :=
  match Universe.declare {}
    ⟨"Counter", .struct, [.field "n" (some .int32), .overrideMethod "ToString" [] (some 0)]⟩ with
  | .ok (_, U) =>
    match U.declare ⟨"Holder", .struct, [.field "o" (some .object)]⟩ with
    | .ok (_, U) => (U.delegate [] (some .string)).2
    | .error _ => {}
  | .error _ => {}

def holderHost : Host :=
  { types := holderTypes, routines := #[(Script.seq [.inc "n", .text [.field "n"]]).routine] }

/-- A holder of a counter that is in no box. -/
def holderStore : Store where
  aggregates :=
    #[⟨some (.declared 0), #[.ofInt32 1]⟩, ⟨some (.declared 1), #[⟨some (.declared 0), .aggregate 0⟩]⟩]

/-- A function that asks what a constant holder holds for its text. -/
def askHolder : Lambda where
  id := 1
  name := "askHolder"
  params := []
  body := .call (.member (.constant ⟨some (.declared 1), .aggregate 1⟩ (some (.declared 1)))
    (.field ⟨"o", .object, .declared 1, 0⟩)) Builtin.objectToString []
  result := some .string
  type := .declared 2

theorem holderTypes_declared : holderTypes.Declared := by
  unfold holderTypes
  split
  · rename_i h
    split
    · rename_i h'
      exact .delegate _ _ (.declare (.declare .empty h) h')
    · exact .empty
  · exact .empty

set_option maxRecDepth 4000 in
/-- **A constant that changes**: asked a second time, the counter in the constant has counted the first call. -/
theorem rawConstant_changes : holderTypes.Declared ∧ askHolder.toExpr.Checked holderTypes ∧ ∃ a,
    compile holderTypes {} (some askHolder) ⟨[], some .string⟩ = .ok a ∧ a.hostCells = [] ∧
    answer? (do
      set holderStore
      a.call holderHost (callDelegate holderHost reentry) []) = some (.ofString "2") ∧
    answer? (do
      set holderStore
      let _ ← a.call holderHost (callDelegate holderHost reentry) []
      a.call holderHost (callDelegate holderHost reentry) []) = some (.ofString "3") := by
  have hrun : (compile holderTypes {} (some askHolder) ⟨[], some .string⟩).toOption.map (fun a => (a.hostCells,
      answer? (do
        set holderStore
        a.call holderHost (callDelegate holderHost reentry) []),
      answer? (do
        set holderStore
        let _ ← a.call holderHost (callDelegate holderHost reentry) []
        a.call holderHost (callDelegate holderHost reentry) []))) =
      some ([], some (.ofString "2"), some (.ofString "3")) := by decide +kernel
  obtain ⟨a, ha, hanswers⟩ := Except.exists_ok_of_map hrun
  simp only [Prod.mk.injEq] at hanswers
  exact ⟨holderTypes_declared, Expr.checked_of_within 4 (by decide +kernel), a, ha, hanswers⟩

end Compiler

end TreeMachine
