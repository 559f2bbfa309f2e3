import Mathlib.Logic.Relation
import TreeMachine.Proofs.Outcome
import TreeMachine.Types.Draft

/-!
# What a description can do

A `Universe` is plain data; what holds of its tables holds because of how it came about.

* **`Universe.Declared`** says which universes can come about.
* **`Draft.Adds`** says everything that a step of a description can add to a draft, so that what is kept by each
  addition is kept by every description (`Draft.adds_of_steps`).
* **`Universe.Declared.every`** is the induction on declared universes: what holds of the builtin declarations and of
  each declaration that is added holds of all types.
-/

open List Option

namespace TreeMachine

open Draft

variable {m : Method} {name : String} {V : Universe}

/-- The universes that a host can build: each declaration adds to an earlier universe. -/
inductive Universe.Declared : Universe → Prop
  | empty : Declared {}
  | declare {U U' : Universe} {spec : TypeSpec} {t : Ty} :
    Declared U → U.declare spec = .ok (t, U') → Declared U'
  | declareEnum {U U' : Universe} {name : String} {underlying : Option Ty}
      {values : List (String × Int64)} {t : Ty} :
    Declared U → U.declareEnum name underlying values = .ok (t, U') → Declared U'
  | delegate {U : Universe} (params : List Ty) (result : Option Ty) :
    Declared U → Declared (U.delegate params result).2

/-! ## Layouts and bodies -/

def TypeDecl.layout (U : Universe) (d : TypeDecl) : List Field :=
  (d.lineage.reverse.flatMap fun c => (U.decl c).fields) ++ d.fields

theorem Universe.layout_eq (U : Universe) (t : Ty) : U.layout t = (U.decl t).layout U := by
  simp [layout, chain, TypeDecl.layout]

theorem Draft.nextIndex_eq (U : Universe) (d : Draft) : d.nextIndex U = (d.decl.layout U).length := by
  have hsum : ∀ (bases : List Ty) (n : Nat),
      (bases.map fun c => (U.decl c).fields.length).foldr (· + ·) n =
        (bases.map fun c => (U.decl c).fields.length).sum + n := by
    intro bases n
    induction bases with
    | nil => simp
    | cons c bases ih => simp [ih, Nat.add_assoc]
  rw [nextIndex, hsum, TypeDecl.layout, length_append, length_flatMap,
    map_reverse, sum_reverse]

/-- What a body takes and gives where it stands for the method `m` of a type with the given layout. -/
def Body.Serves (layout : List Field) (m : Method) : Body → Prop
  | .objectToString | .stringToUpper => m.result = some .string
  | .objectEquals | .valueEquals | .stringContains => m.params.length = 1 ∧ m.result = some .bool
  | .objectHashCode | .valueHashCode | .stringLength => m.result = some .int32
  | .scalarCompareTo | .stringCompareTo => m.params.length = 1 ∧ m.result = some .int32
  | .readField i => m.isStatic = false ∧ ∃ f, layout[i]? = some f ∧ m.result = some f.type
  | .writeField i =>
    m.isStatic = false ∧ ∃ f, layout[i]? = some f ∧ m.params = [some f.type] ∧ m.result = none
  | .host _ => True

/-- Where a body is there, it is a routine of the host. -/
def Method.IsHosted (m : Method) : Prop := ∀ b, m.body = some b → ∃ r, b = .host r

theorem Method.isHosted_of_map {r : Option Nat} (h : m.body = r.map .host) : m.IsHosted := by
  intro b hb
  rw [h] at hb
  obtain ⟨n, -, rfl⟩ := map_eq_some_iff.1 hb
  exact ⟨n, rfl⟩

theorem Method.IsHosted.serves (h : m.IsHosted) (layout : List Field) (b : Body) (hb : m.body = some b) :
    b.Serves layout m := by
  obtain ⟨r, rfl⟩ := h b hb
  trivial

/-! ## What one step adds -/

theorem forall_mem_concat {α : Type} {P : α → Prop} {xs : List α} {x : α} (hxs : ∀ y ∈ xs, P y) (hx : P x) :
    ∀ y ∈ xs ++ [x], P y :=
  forall_mem_append.2 ⟨hxs, forall_mem_singleton.2 hx⟩

theorem Property.forall_mem_accessors (p : Property) {P : Method → Prop} {ms : List Method} (hms : ∀ m ∈ ms, P m)
    (hget : P p.getter) (hset : ∀ m, p.setter = some m → P m) : ∀ m ∈ ms ++ p.getter :: p.setter.toList, P m :=
  forall_mem_append.2 ⟨hms, forall_mem_cons.2 ⟨hget, fun m hm => hset m (mem_toList.1 hm)⟩⟩

/-- A drafted method that waits for its slot, which it gets if it is virtual. -/
structure Waits (p : Dispatch × Method) : Prop where
  slot : p.2.slot = none
  isStatic : p.1 ≠ .plain → p.2.isStatic = false
  isVirtual : p.1 ≠ .plain → p.2.isVirtual = true
  plain : p.1 = .plain → p.2.isVirtual = false

/-- The accessors of a property take and give values of its type. They work on a field of the given layout or run
a routine of the host. -/
structure Property.Accesses (layout : List Field) (p : Property) : Prop where
  owner : p.getter.owner = p.owner
  isVirtual : p.getter.isVirtual = false
  getter : p.getter.params = [] ∧ p.getter.result = p.type ∧ p.getter.isStatic = false ∧ p.getter.slot = none
  getterBody : ∀ b, p.getter.body = some b → b.Serves layout p.getter
  setterOwner : ∀ m, p.setter = some m → m.owner = p.owner ∧ m.isVirtual = false
  setter : ∀ m, p.setter = some m → m.params = [p.type] ∧ m.result = none ∧ m.isStatic = false ∧ m.slot = none
  setterBody : ∀ m, p.setter = some m → ∀ b, m.body = some b → b.Serves layout m

/-- One addition to a draft. -/
inductive Draft.Adds (U : Universe) (d : Draft) : Draft → Prop
  | close : Adds U d { d with decl := { d.decl with declaredSealed := true } }
  | field (f : Field) : d.decl.form ≠ .interface → d.field? U f.name = none → f.owner = d.self →
    f.index = (d.decl.layout U).length →
    Adds U d { d with decl := { d.decl with fields := d.decl.fields ++ [f] } }
  | property (p : Property) : p.owner = d.self → p.Accesses (d.decl.layout U) →
    Adds U d
      { d with
        serial := d.serial + 2
        decl := { d.decl with
          methods := d.decl.methods ++ p.getter :: p.setter.toList
          properties := d.decl.properties ++ [p] } }
  | method (k : Dispatch) (m : Method) : m.owner = d.self → m.IsHosted → Waits (k, m) →
    (d.decl.form = .interface → k = .plain) →
    (∀ p ∈ d.pending, p.2.name = m.name → p.2.params.length ≠ m.params.length) →
    Adds U d { d with serial := d.serial + 1, pending := d.pending ++ [(k, m)] }
  | constructor (c : Method) : c.owner = d.self → c.IsHosted → c.result = none → c.isStatic = false →
    Adds U d { d with serial := d.serial + 1, decl := { d.decl with constructors := d.decl.constructors ++ [c] } }
  | interface (i : Ty) : U.isInterface i = true →
    Adds U d { d with decl := { d.decl with interfaces := d.decl.interfaces ++ [i] } }

namespace Draft

open Relation (ReflTransGen)

variable {U : Universe} {d d' : Draft}

theorem addField_eq_ok {type : Option Ty} (h : d.addField U name type = .ok d') :
    ∃ f : Field, type = some f.type ∧ f.index = (d.decl.layout U).length ∧
      d' = { d with decl := { d.decl with fields := d.decl.fields ++ [f] } } ∧ d.Adds U d' := by
  unfold addField at h
  split at h
  · cases h
  · rename_i hi
    split at h
    · cases h
    · split at h
      · cases h
      · rename_i hname
        cases h
        refine ⟨_, rfl, nextIndex_eq U d, rfl, .field _ (fun hform => hi (by rw [storage, hform])) ?_ rfl
          (nextIndex_eq U d)⟩
        simpa using hname

theorem adds_of_addMethod {k : Dispatch} (ho : m.owner = d.self) (hb : m.IsHosted) (hm : Waits (k, m))
    (h : d.addMethod k m = .ok d') : d.Adds U d' := by
  unfold addMethod at h
  split at h
  · cases h
  · split at h
    · cases h
    · rename_i hvirtual
      split at h
      · cases h
      · rename_i hfresh
        cases h
        refine .method k m ho hb hm (fun hform => ?_) fun p hp hname harity => hfresh ?_
        · have hstorage : d.storage = .interface := by rw [storage, hform]
          simpa [hstorage] using hvirtual
        · exact any_eq_true.2 ⟨p, hp, by simp [hname, harity]⟩

theorem adds_of_addConstructor {params : List (Option Ty)} {body : Option Nat}
    (h : d.addConstructor params (body.map .host) = .ok d') : d.Adds U d' := by
  unfold addConstructor at h
  split at h
  · cases h
  · split at h
    · cases h
    · cases h
      exact .constructor _ rfl (Method.isHosted_of_map rfl) rfl rfl

theorem adds_of_addInterface {i : Option Ty} (h : d.addInterface U i = .ok d') : d.Adds U d' := by
  cases i with
  | none => cases h
  | some i =>
    simp only [addInterface] at h
    split at h
    · cases h
      exact .interface i ‹_›
    · cases h

theorem adds_addProperty (name : String) (type : Option Ty) {getter : Option Body} {setter : Option (Option Body)}
    (hget : ∀ b, getter = some b → ∀ m : Method, m.isStatic = false → m.result = type → b.Serves (d.decl.layout U) m)
    (hset : ∀ b, setter = some (some b) → ∀ m : Method, m.isStatic = false → m.params = [type] →
      m.result = none → b.Serves (d.decl.layout U) m) : d.Adds U (d.addProperty name type getter setter) := by
  refine .property _ rfl ⟨rfl, rfl, ⟨rfl, rfl, rfl, rfl⟩, fun b hb => hget b hb _ rfl rfl, ?_, ?_, ?_⟩
  · intro m hm
    obtain ⟨b, -, rfl⟩ := map_eq_some_iff.1 hm
    exact ⟨rfl, rfl⟩
  · intro m hm
    obtain ⟨b, -, rfl⟩ := map_eq_some_iff.1 hm
    exact ⟨rfl, rfl, rfl, rfl⟩
  · intro m hm b hb
    obtain ⟨b', hb', rfl⟩ := map_eq_some_iff.1 hm
    exact hset b (hb'.trans (congrArg some hb)) _ rfl rfl rfl

theorem adds_of_foldlM {α : Type} {f : Draft → α → Except DeclareError Draft}
    (hf : ∀ {d d' : Draft} {a : α}, f d a = .ok d' → ReflTransGen (Adds U) d d') {as : List α} {d d' : Draft}
    (h : as.foldlM f d = .ok d') : ReflTransGen (Adds U) d d' := by
  induction as generalizing d with
  | nil =>
    rw [foldlM_nil] at h
    cases h
    exact .refl
  | cons a as ih =>
    rw [foldlM_cons] at h
    obtain ⟨e, he, h⟩ := Except.bind_eq_ok.1 h
    exact (hf he).trans (ih h)

theorem adds_of_step {p : DraftStep} (h : d.step U p = .ok d') : ReflTransGen (Adds U) d d' := by
  have hmethod : ∀ {k : Dispatch} {m : Method} {r : Option Nat}, m.owner = d.self → m.body = r.map .host →
      Waits (k, m) → d.addMethod k m = .ok d' → ReflTransGen (Adds U) d d' := fun ho hb hm h =>
    .single (adds_of_addMethod ho (Method.isHosted_of_map hb) hm h)
  cases p with
  | close =>
    cases h
    exact .single .close
  | field name type =>
    obtain ⟨f, -, -, -, hadds⟩ := addField_eq_ok h
    exact .single hadds
  | property name type getter setter =>
    cases h
    refine .single (adds_addProperty name type (fun b hb m _ _ => ?_) fun b hb m _ _ _ => ?_)
    · obtain ⟨n, -, rfl⟩ := map_eq_some_iff.1 hb
      trivial
    · obtain ⟨n, -, hn⟩ := map_eq_some_iff.1 hb
      cases hn
      trivial
  | autoProperty name type =>
    obtain ⟨e, he, h⟩ := Except.bind_eq_ok.1 h
    cases h
    obtain ⟨f, rfl, hf, rfl, hadds⟩ := addField_eq_ok he
    -- the accessors work on the field that was just added
    have hat : (TypeDecl.layout U { d.decl with fields := d.decl.fields ++ [f] })[d.nextIndex U]? = some f := by
      rw [nextIndex_eq, TypeDecl.layout, TypeDecl.layout, ← append_assoc]
      exact getElem?_concat_length
    refine .tail (.single hadds) (adds_addProperty name _ (fun b hb m hs hr => ?_) fun b hb m hs hp hr => ?_)
    · cases hb
      exact ⟨hs, f, hat, hr⟩
    · cases hb
      exact ⟨hs, f, hat, hp, hr⟩
  | abstractProperty name type writable =>
    simp only [step] at h
    split at h
    · cases h
      refine .single (adds_addProperty name type (fun b hb => by cases hb) fun b hb => ?_)
      split at hb
      · cases hb
      · cases hb
    · cases h
  | method name params result body =>
    exact hmethod rfl rfl ⟨rfl, fun h => absurd rfl h, fun h => absurd rfl h, fun _ => rfl⟩ h
  | staticMethod name params result body =>
    exact hmethod rfl rfl ⟨rfl, fun h => absurd rfl h, fun h => absurd rfl h, fun _ => rfl⟩ h
  | virtualMethod name params result body =>
    simp only [step] at h
    split at h
    · exact hmethod rfl rfl ⟨rfl, fun _ => rfl, fun _ => rfl, fun h => by cases h⟩ h
    · cases h
  | overrideMethod name params body =>
    exact hmethod rfl rfl ⟨rfl, fun _ => rfl, fun _ => rfl, fun h => by cases h⟩ h
  | constructor params body => exact .single (adds_of_addConstructor h)
  | implements interfaces => exact adds_of_foldlM (fun h => .single (adds_of_addInterface h)) h

theorem adds_keep {P : Draft → Prop} (hP : ∀ {d d' : Draft}, d.Adds U d' → P d → P d')
    (h : ReflTransGen (Adds U) d d') (hd : P d) : P d' := by
  induction h with
  | refl => exact hd
  | tail _ hstep ih => exact hP hstep ih

end Draft

/-! ## Universes that grow -/

namespace Universe

def Knows (U : Universe) : Ty → Prop
  | .declared i => i < U.decls.size
  | _ => True

structure Extends (U' U : Universe) : Prop where
  knows : ∀ t, U.Knows t → U'.Knows t
  decl : ∀ t, U.Knows t → U'.decl t = U.decl t

theorem extends_push (U : Universe) (d : TypeDecl) (sigs : List (String × Nat)) :
    Extends { decls := U.decls.push d, signatures := sigs } U where
  knows t h := by
    cases t with
    | declared i => simp only [Knows, Array.size_push] at h ⊢; omega
    | _ => trivial
  decl t h := by
    cases t with
    | declared i =>
      simp only [Knows] at h
      simp [Universe.decl, Array.getElem?_push, Nat.ne_of_lt h]
    | _ => rfl

variable {U : Universe} {t : Ty}

theorem decl_of_not_knows (h : ¬U.Knows t) : U.decl t = default := by
  cases t with
  | declared i =>
    simp only [Knows, Nat.not_lt] at h
    simp [Universe.decl, Array.getElem?_eq_none h]
  | _ => exact absurd trivial h

/-- A reference type or an interface is known: a type without a declaration counts as a scalar. -/
theorem knows_of_storage (h : U.isValue t = false) : U.Knows t := by
  by_contra hk
  have hv : U.isValue t = true := by
    unfold isValue storage
    rw [decl_of_not_knows hk]
    rfl
  rw [hv] at h
  cases h

/-- A declaration that a request can add to a universe. -/
inductive Admits (U : Universe) : TypeDecl → Prop
  | described {name : String} {kind : DraftKind} {d d' : Draft} {decl : TypeDecl} :
    start U U.next name kind = .ok d → Relation.ReflTransGen (Draft.Adds U) d d' → d'.finish U = .ok decl →
    Admits U decl
  | enumeration (name : String) (p : Primitive) (names : List (Int64 × String)) : p = .int32 ∨ p = .int64 →
    Admits U
      { name := name
        form := .enumeration p names
        lineage := [.enumBase, .valueType, .object]
        vtable := Builtin.enumBase.vtable }
  | delegate (text : String) (params : List Ty) (result : Option Ty) :
    Admits U
      { name := text
        form := .delegate params result
        declaredSealed := true
        lineage := [.object]
        vtable := Builtin.object.vtable }

theorem admits_of_declare {spec : TypeSpec} (h : U.declare spec = .ok (t, V)) :
    ∃ d, U.Admits d ∧ (t, V) = U.add d := by
  obtain ⟨d, hstart, h⟩ := Except.bind_eq_ok.1 h
  obtain ⟨d', hsteps, h⟩ := Except.bind_eq_ok.1 h
  obtain ⟨decl, hfinish, h⟩ := Except.bind_eq_ok.1 h
  cases h
  exact ⟨decl, .described hstart (adds_of_foldlM adds_of_step hsteps) hfinish, rfl⟩

theorem admits_of_declareEnum {underlying : Option Ty} {values : List (String × Int64)}
    (h : U.declareEnum name underlying values = .ok (t, V)) : ∃ d, U.Admits d ∧ (t, V) = U.add d := by
  have hover : ∀ p, p = .int32 ∨ p = .int64 → declareEnum.declareOver U name values p = .ok (t, V) →
      ∃ d, U.Admits d ∧ (t, V) = U.add d := by
    intro p hp h
    obtain ⟨names, -, h⟩ := Except.bind_eq_ok.1 h
    cases h
    exact ⟨_, .enumeration name p names hp, rfl⟩
  unfold declareEnum at h
  split at h
  · exact hover _ (.inl rfl) h
  · exact hover _ (.inr rfl) h
  · cases h

/-- What holds of the empty universe and is kept by every declaration that is added holds of declared universes. -/
theorem Declared.inductionOn {P : Universe → Prop} (hU : U.Declared) (empty : P {})
    (push : ∀ {U : Universe} {d : TypeDecl}, U.Declared → P U → U.Admits d →
      ∀ sigs, P { decls := U.decls.push d, signatures := sigs }) : P U := by
  induction hU with
  | empty => exact empty
  | declare hU h ih =>
    obtain ⟨d, hd, h⟩ := admits_of_declare h
    cases h
    exact push hU ih hd _
  | declareEnum hU h ih =>
    obtain ⟨d, hd, h⟩ := admits_of_declareEnum h
    cases h
    exact push hU ih hd _
  | @delegate U params result hU ih =>
    unfold Universe.delegate
    dsimp only
    split
    · split
      · exact ih
      · exact push hU ih (.delegate _ params result) _
    · exact push hU ih (.delegate _ params result) _

/-- **Every declaration** has what the builtin declarations have, what each declaration that is added has, and what
is kept as the universe grows. -/
theorem Declared.every {P : Universe → Ty → TypeDecl → Prop} (hU : U.Declared)
    (mono : ∀ {U U' : Universe} {t : Ty} {d : TypeDecl}, U'.Extends U → P U t d → P U' t d)
    (builtin : ∀ (U : Universe) {t : Ty}, (∀ i, t ≠ .declared i) → P U t (U.decl t))
    (admitted : ∀ {U : Universe} {d : TypeDecl}, U.Declared → (∀ t, U.Knows t → P U t (U.decl t)) → U.Admits d →
      P U U.next d) : ∀ t, U.Knows t → P U t (U.decl t) := by
  refine hU.inductionOn (P := fun U => ∀ t, U.Knows t → P U t (U.decl t))
    (fun t hk => ?_) fun {U d} hU ih hd sigs t hk => ?_
  · cases t with
    | declared i => exact absurd hk (Nat.not_lt_zero i)
    | _ => exact builtin _ (by simp)
  · have hext := extends_push U d sigs
    by_cases hold : U.Knows t
    · rw [hext.decl t hold]
      exact mono hext (ih t hold)
    · cases t with
      | declared i =>
        -- the only type that is known now and was not before
        simp only [Knows, Nat.not_lt, Array.size_push] at hold hk
        obtain rfl : i = U.decls.size := by omega
        have hnew : decl { decls := U.decls.push d, signatures := sigs } (.declared U.decls.size) = d := by
          simp [decl]
        rw [hnew]
        exact mono hext (admitted hU ih hd)
      | _ => exact absurd trivial hold

end Universe

end TreeMachine
