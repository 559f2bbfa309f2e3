import TreeMachine.Proofs.Store.HeapOperations

/-!
# Methods of a typed host

The builtin bodies take receivers and arguments of the declared types to a result of the declared type,
and so does every method of a host whose routines do (`Host.Typed`). What a routine may rely on is the same:
it starts in a typed heap, and the delegates it calls back keep heaps typed (`Caller.Typed`).
-/

namespace TreeMachine

open Exec (Settles Answers OfType)
open Heap

variable {U : Universe} {F : Delegate → Signature → Prop}

/-! ## Promises -/

def Exec.Returns (t : Option Ty) (w : Heap U F) (v : Value) : Prop :=
  ∀ u, t = some u → w.HasType v (some u)

/-- The caller takes arguments of the types that a delegate serves to a result of the type. -/
def Caller.Typed (call : Caller) (w : Heap U F) : Prop :=
  ∀ w' : Heap U F, w'.Extends w → w'.Typed → ∀ (d : Delegate) (sig : Signature) (args : List Value),
    d.Serves F sig → w'.Runs d → w'.HaveTypes args (sig.1.map some) →
      Answers w' (call d args) (Exec.Returns sig.2)

theorem Caller.Typed.mono {call : Caller} {w w' : Heap U F} (h : Caller.Typed call w) (hext : w'.Extends w) :
    Caller.Typed call w' := fun w'' hext' => h w'' (hext.trans hext')

/-- The routine takes a receiver of type `self`, if there is one, and arguments of the given types to a
result of the type, in every later heap. -/
def Routine.Fits (r : Routine) (w : Heap U F) (self : Option Ty) (params : List (Option Ty))
    (result : Option Ty) : Prop :=
  ∀ w' : Heap U F, w'.Extends w → w'.Typed → ∀ (call : Caller) (v : Value) (args : List Value),
    Caller.Typed call w' → (∀ t, self = some t → w'.HasType v (some t) ∧ v.datum ≠ .null) →
      w'.HaveTypes args params → Answers w' (r U call v args) (Exec.Returns result)

theorem Routine.Fits.mono {r : Routine} {w w' : Heap U F} {self result : Option Ty}
    {params : List (Option Ty)} (h : r.Fits w self params result) (hext : w'.Extends w) :
    r.Fits w' self params result := fun w'' hext' => h w'' (hext.trans hext')

namespace Host

def Provides (H : Host) (w : Heap H.types F) (routine : Nat) (self : Option Ty) (params : List (Option Ty))
    (result : Option Ty) : Prop :=
  ∃ r, H.routines[routine]? = some r ∧ r.Fits w self params result

/-- **A typed host**: its types are regular, and its routines fit the methods and constructors that they are
the bodies of. -/
structure Typed (H : Host) (w : Heap H.types F) : Prop where
  types : H.types.Regular
  methods : ∀ t, H.types.isInterface t = false → ∀ m ∈ (H.types.decl t).methods, ∀ r,
    m.body = some (.host r) → H.Provides w r (if m.isStatic then none else some t) m.params m.result
  constructors : ∀ t, ∀ c ∈ (H.types.decl t).constructors, ∀ r,
    c.body = some (.host r) → H.Provides w r (some t) c.params none

theorem Typed.mono {H : Host} {w w' : Heap H.types F} (h : H.Typed w) (hext : w'.Extends w) : H.Typed w' where
  types := h.types
  methods t ht m hm r hr := by
    obtain ⟨x, hx, hfits⟩ := h.methods t ht m hm r hr
    exact ⟨x, hx, hfits.mono hext⟩
  constructors t c hc r hr := by
    obtain ⟨x, hx, hfits⟩ := h.constructors t c hc r hr
    exact ⟨x, hx, hfits.mono hext⟩

end Host

/-- The value can be the receiver of a method of its owner. The methods of builtin types take all values. -/
def Heap.Receives (w : Heap U F) (m : Method) (self : Value) : Prop :=
  w.Proper self ∧ (m.isStatic = false → ∀ i, m.owner = .declared i →
    w.HasType self (some m.owner) ∧ self.datum ≠ .null)

/-- **Implementations** are found where the receiver, taken out of its box if they belong to a value type,
is of their owner. -/
theorem Heap.receives_of_implementation {w : Heap U F} (hU : U.Regular) (hw : w.Typed) {t d : Ty} {self : Value}
    {m impl : Method} (h : w.HasType self (some t)) (hn : self.datum ≠ .null)
    (hd : w.store.dynamicType self = some d) (himpl : U.Implementation d m impl) :
    w.Receives impl (if U.isValue impl.owner then w.store.unboxed self else self) := by
  cases hv : U.isValue impl.owner with
  | true =>
    have ho := himpl.value hv
    rw [ho] at hv
    have hunboxed := hw.unboxed hU h hn hd hv
    refine ⟨hunboxed.1, fun _ _ _ => ?_⟩
    rw [ho]
    exact ⟨hunboxed, (hunboxed.type_of_value hv).2.1⟩
  | false =>
    refine ⟨h.1, fun _ i hi => ?_⟩
    have hchain : impl.owner ∈ U.chain d := himpl.owner.resolve_right fun hne => hne i hi
    cases ht : U.isValue t with
    | true =>
      -- the bases of a value type are builtin
      obtain rfl : t = d := Option.some.inj ((h.type_of_value ht).2.2.symm.trans hd)
      rcases List.mem_cons.1 hchain with ho | hbase
      · rw [ho, ht] at hv
        cases hv
      · rcases hU.declared.traced_or t with ⟨hk, -⟩ | hdecl
        · rw [hU.declared.lineage_of_value hk ht, hi] at hbase
          split at hbase <;> simp at hbase
        · rw [hdecl] at hbase
          cases hbase
    | false =>
      obtain ⟨d', hr, -⟩ := ((hasType_reference hU ht).1 h).resolve_left hn
      obtain rfl : d' = d := Option.some.inj (hr.dynamicType.symm.trans hd)
      exact ⟨(hasType_reference hU hv).2 (.inr ⟨d', hr, .of_chain hchain⟩), hn⟩

/-! ## Bodies -/

namespace Body

variable {w : Heap U F} {self other : Value}

theorem answers_compareTo (hw : w.Typed) : Answers w (compareTo U self other) (OfType (some .int32)) := by
  refine Settles.get_bind ?_
  refine Settles.get_bind ?_
  split
  · exact .pure hw (hasType_int32 _)
  · split
    · exact .fail hw rfl
    · exact .pure hw (hasType_int32 _)

theorem answers_compareTextTo (hw : w.Typed) : Answers w (compareTextTo self other) (OfType (some .int32)) := by
  unfold compareTextTo
  split
  · exact .pure hw (hasType_int32 _)
  · exact .pure hw (hasType_int32 _)
  · exact .fail hw rfl

variable {H : Host} {call : Caller} {w : Heap H.types F} {args : List Value}

theorem answers_head (hw : w.Typed) {params : List (Option Ty)} (hargs : w.HaveTypes args params)
    (hlen : params.length = 1) {f : Value → Exec Value} {Q : Heap H.types F → Value → Prop}
    (h : ∀ v, Answers w (f v) Q) : Answers w (Exec.getSome args.head? >>= f) Q := by
  have hargslen := List.Forall₂.length_eq hargs
  rw [hlen] at hargslen
  obtain ⟨v, rfl⟩ := List.length_eq_one_iff.1 hargslen
  refine (Settles.getSome (Q := fun w' y => w' = w ∧ y = v) hw rfl ⟨rfl, rfl⟩).bind ?_
  rintro _ _ - - ⟨rfl, rfl⟩
  exact h _

theorem answers_run (hH : H.Typed w) (hcall : Caller.Typed call w) (hw : w.Typed) {m : Method} {b : Body}
    (hi : H.types.isInterface m.owner = false) (hm : H.types.Declares m) (hb : m.body = some b)
    (hself : w.Receives m self) (hargs : w.HaveTypes args m.params) :
    Answers w (b.run H call self args) (Exec.Returns m.result) := by
  have hU := hH.types
  have htraced : (H.types.decl m.owner).Traced H.types m.owner := by
    rcases hU.declared.traced_or m.owner with ⟨-, h⟩ | hd
    · exact h
    · rw [Universe.Declares, hd] at hm
      cases hm
  have hserves := htraced.bodies m hm b hb
  -- bodies that work on fields belong to types of the host, so the receiver has the fields
  have hstores : b.isForeign = true → m.isStatic = false → ∀ {i : Nat} {f : Field},
      ((H.types.decl m.owner).layout H.types)[i]? = some f →
      ∃ d, w.Stores self d ∧ (H.types.layout d)[i]? = some f := by
    intro hforeign hstatic i f hf
    obtain ⟨j, hj⟩ := htraced.foreign m hm b hb hforeign
    obtain ⟨hty, hn⟩ := hself.2 hstatic j hj
    rw [← Universe.layout_eq] at hf
    exact hty.stores hU hn hf
  have hret : ∀ {t : Ty} {x : Exec Value}, m.result = some t → Answers w x (OfType (some t)) →
      Answers w x (Exec.Returns m.result) := by
    intro t x ht hx
    refine hx.mono fun w' v _ _ hv u hu => ?_
    cases ht.symm.trans hu
    exact hv
  unfold run
  cases b with
  | objectToString => exact hret hserves (.get_bind (.pure hw (hasType_string _)))
  | objectEquals | stringContains =>
    exact hret hserves.2 (answers_head hw hargs hserves.1 fun v => .pure hw (hasType_bool _))
  | objectHashCode | stringLength => exact hret hserves (.pure hw (hasType_int32 _))
  | valueEquals =>
    refine hret hserves.2 (answers_head hw hargs hserves.1 fun v => Settles.bind (Exec.settles_equal hw self v) ?_)
    rintro _ _ - - rfl
    exact .pure hw (hasType_bool _)
  | valueHashCode =>
    obtain ⟨h, hh⟩ := Option.isSome_iff_exists.1 (hw.isSome_hash hself.1)
    refine hret hserves (Settles.bind (Q := fun w' _ => w' = w) ?_ ?_)
    · refine .get_bind (.nesting_bind hw (.get_bind ?_))
      rw [hh]
      exact .pure hw rfl
    · rintro _ _ - - rfl
      exact .pure hw (hasType_int32 _)
  | scalarCompareTo =>
    exact hret hserves.2 (answers_head hw hargs hserves.1 fun v => answers_compareTo hw)
  | stringToUpper => exact hret hserves (.pure hw (hasType_string _))
  | stringCompareTo =>
    exact hret hserves.2 (answers_head hw hargs hserves.1 fun v => answers_compareTextTo hw)
  | readField i =>
    obtain ⟨hstatic, f, hf, hr⟩ := hserves
    obtain ⟨d, hd, hfd⟩ := hstores rfl hstatic hf
    obtain ⟨x, hx, hty⟩ := hd.field hw hfd
    exact hret hr (.get_bind (.getSome hw hx hty))
  | writeField i =>
    obtain ⟨hstatic, f, hf, hp, hr⟩ := hserves
    obtain ⟨d, hd, hfd⟩ := hstores rfl hstatic hf
    obtain ⟨x, hx, -⟩ := hd.field hw hfd
    rw [hp] at hargs
    cases hargs with
    | @cons v _ _ _ hv hnil =>
      refine (Settles.getSome (Q := fun w' y => w' = w ∧ y = v) hw rfl ⟨rfl, rfl⟩).bind ?_
      rintro _ _ - - ⟨rfl, rfl⟩
      refine Settles.get_bind ?_
      rw [if_pos (Array.getElem?_eq_some_iff.1 hx).1]
      refine (Exec.settles_modify (hd.setField hw hfd hv)).bind fun w' _ _ hw' _ => .pure hw' ?_
      intro u hu
      rw [hr] at hu
      cases hu
  | host r =>
    obtain ⟨x, hx, hfits⟩ := hH.methods m.owner hi m hm r hb
    show Answers w (run H call (.host r) self args) _
    rw [run_host, hx]
    obtain ⟨j, hj⟩ := htraced.foreign m hm _ hb rfl
    refine hfits w (.refl w) hw call self args hcall (fun t ht => ?_) hargs
    cases hstatic : m.isStatic with
    | true => simp [hstatic] at ht
    | false =>
      simp only [hstatic, Bool.false_eq_true, if_false, Option.some.injEq] at ht
      rw [← ht]
      exact hself.2 hstatic j hj

end Body

namespace Host.Typed

variable {H : Host} {call : Caller} {w : Heap H.types F} {args : List Value} {self : Value}

theorem invoke (hH : H.Typed w) (hcall : Caller.Typed call w) (hw : w.Typed) {m : Method}
    (hi : H.types.isInterface m.owner = false) (hm : H.types.Declares m) (hself : w.Receives m self)
    (hargs : w.HaveTypes args m.params) : Answers w (H.invoke call m self args) (Exec.Returns m.result) := by
  obtain ⟨b, hb⟩ := Option.isSome_iff_exists.1
    (hH.types.implemented m.owner hi m (List.mem_append_left _ hm))
  unfold Host.invoke
  rw [hb]
  exact Body.answers_run hH hcall hw hi hm hb hself hargs

theorem construct (hH : H.Typed w) (hcall : Caller.Typed call w) (hw : w.Typed) {t : Ty} {c : Method}
    (hi : H.types.isInterface t = false) (hc : c ∈ (H.types.decl t).constructors)
    (hself : w.HasType self (some t)) (hn : self.datum ≠ .null) (hargs : w.HaveTypes args c.params) :
    Answers w (H.invoke call c self args) fun _ _ => True := by
  obtain ⟨b, hb⟩ := Option.isSome_iff_exists.1
    (hH.types.implemented t hi c (List.mem_append_right _ hc))
  obtain ⟨r, rfl⟩ : ∃ r, b = .host r := by
    rcases hH.types.declared.traced_or t with ⟨-, h⟩ | hd
    · exact (h.constructors c hc).2 b hb
    · rw [hd] at hc
      cases hc
  obtain ⟨x, hx, hfits⟩ := hH.constructors t c hc r hb
  unfold Host.invoke
  rw [hb]
  dsimp only
  rw [Body.run_host, hx]
  refine (hfits w (.refl w) hw call self args hcall (fun u hu => ?_) hargs).mono fun _ _ _ _ _ => trivial
  cases hu
  exact ⟨hself, hn⟩

end Host.Typed

end TreeMachine
