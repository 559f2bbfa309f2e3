import TreeMachine.Proofs.Types.Declaration

/-!
# Where the members of a declared type come from

The tables of a declaration hold methods of the type itself and of its bases, and its fields stand in
the storage of every type below it at the same place. As for `Universe.Declared.allLaid`, each fact is
proved of a single declaration first (`TypeDecl.Traced`): the builtin declarations have it, carrying
out a description establishes it, and adding declarations keeps it.

So a field that a type has is at its index in the layout of the type, and where a value of dynamic type `d`
has a method, the method has an implementation that `d` or a base of it declares.
-/

open List Option

namespace TreeMachine

open Draft Universe Builtin

/-! ## Chains and layouts -/

namespace Universe

variable {U : Universe}

theorem AllLaid.chain_suffix (hU : U.AllLaid) {t c : Ty} (hc : c ∈ U.chain t) : U.chain c <:+ U.chain t := by
  refine hU.inductionOn (P := fun t => c ∈ U.chain t → U.chain c <:+ U.chain t) t (fun t ht hc => ?_)
    (fun t b hb _ ih hc => ?_) hc
  · rw [chain, ht, mem_singleton] at hc
    exact hc ▸ suffix_refl _
  · rcases mem_cons.1 hc with rfl | hc
    · exact suffix_refl _
    · exact (ih (hb ▸ hc)).trans ⟨[t], by rw [← hb]; rfl⟩

theorem AllLaid.mem_chain_trans (hU : U.AllLaid) {t c b : Ty} (hc : c ∈ U.chain t)
    (hb : b ∈ U.chain c) : b ∈ U.chain t := (hU.chain_suffix hc).subset hb

theorem AllLaid.layout_prefix (hU : U.AllLaid) {t c : Ty} (hc : c ∈ U.chain t) : U.layout c <+: U.layout t := by
  obtain ⟨r, hr⟩ := reverse_prefix.2 (hU.chain_suffix hc)
  refine ⟨r.flatMap fun b => (U.decl b).fields, ?_⟩
  rw [layout, layout, ← hr, flatMap_append]

end Universe

/-! ## What a declaration traces back to -/

/-- The body works on fields of its receiver, or is a routine of the host. -/
def Body.isForeign : Body → Bool
  | .readField _ | .writeField _ | .host _ => true
  | _ => false

variable {m : Method}

theorem Body.Serves.mono {layout layout' : List Field} {b : Body} (h : b.Serves layout m)
    (hl : layout <+: layout') : b.Serves layout' m := by
  have hat : ∀ {i : Nat} {f : Field}, layout[i]? = some f → layout'[i]? = some f := by
    intro i f hi
    obtain ⟨r, rfl⟩ := hl
    rw [List.getElem?_append_left (List.getElem?_eq_some_iff.1 hi).1]
    exact hi
  cases b with
  | readField i =>
    obtain ⟨hs, f, hf, hr⟩ := h
    exact ⟨hs, f, hat hf, hr⟩
  | writeField i =>
    obtain ⟨hs, f, hf, hp, hr⟩ := h
    exact ⟨hs, f, hat hf, hp, hr⟩
  | _ => exact h

structure TypeDecl.Bare (d : TypeDecl) : Prop where
  fields : d.fields = []
  properties : d.properties = []
  methods : d.methods = []
  constructors : d.constructors = []
  tables : d.tables = []

/-- What the form of a type says about its declaration. -/
def TypeDecl.Shaped (t : Ty) (d : TypeDecl) : Prop :=
  match d.form with
  | .scalar p => t = p.type
  | .enumeration p _ => (p = .int32 ∨ p = .int64) ∧ d.lineage = [.enumBase, .valueType, .object] ∧ d.Bare
  | .struct => (∃ i, t = .declared i) ∧ d.lineage = [.valueType, .object]
  | .classType => .object ∈ t :: d.lineage
  | .interface => d.lineage = [] ∧ d.fields = [] ∧ d.vtable = []
  | .array => ∃ e, t = .array e
  | .delegate _ _ => d.lineage = [.object] ∧ d.Bare ∧ d.declaredSealed = true

def TypeDecl.Has (U : Universe) (d : TypeDecl) (m : Method) : Prop :=
  m ∈ d.methods ∨ ∃ c ∈ d.lineage, m ∈ (U.decl c).methods

structure TypeDecl.Owned (U : Universe) (t : Ty) (d : TypeDecl) : Prop where
  owner : ∀ m ∈ d.methods, m.owner = t
  fieldOwner : ∀ f ∈ d.fields, f.owner = t
  propertyOwner : ∀ p ∈ d.properties, p.owner = t
  getter : ∀ p ∈ d.properties, p.getter ∈ d.methods
  setter : ∀ p ∈ d.properties, ∀ m, p.setter = some m → m ∈ d.methods
  bodies : ∀ m ∈ d.methods, ∀ b, m.body = some b → b.Serves (d.layout U) m
  fields : ∀ f ∈ d.fields, (d.layout U)[f.index]? = some f
  lineage : ∀ c ∈ d.lineage, (U.decl c).form = .classType

/-- What the declaration of `t` holds is its own or stems from a base. -/
structure TypeDecl.Traced (U : Universe) (t : Ty) (d : TypeDecl) : Prop extends d.Owned U t where
  shape : d.Shaped t
  foreign : ∀ m ∈ d.methods, ∀ b, m.body = some b → b.isForeign = true → ∃ i, t = .declared i
  constructors : ∀ c ∈ d.constructors, c.owner = t ∧ ∀ b, c.body = some b → ∃ r, b = .host r
  vtable : ∀ m ∈ d.vtable, d.Has U m
  tables : ∀ e ∈ d.tables, U.Knows e.1 ∧ e.2.length = (U.decl e.1).methods.length ∧ ∀ m ∈ e.2, d.Has U m
  interfaces : d.tables.map (·.1) = d.interfaces

variable {U : Universe} {t : Ty}

theorem Universe.knows_of_class (h : (U.decl t).form = .classType) : U.Knows t := by
  refine knows_of_storage ?_
  simp [isValue, storage, h, Storage.isValue]

namespace TypeDecl.Traced

variable {U U' : Universe} {t : Ty} {d : TypeDecl}

theorem knows_lineage (h : d.Traced U t) {c : Ty} (hc : c ∈ d.lineage) : U.Knows c :=
  knows_of_class (h.lineage c hc)

theorem layout_mono (h : d.Traced U t) (hU : U'.Extends U) : d.layout U' = d.layout U := by
  unfold TypeDecl.layout
  congr 1
  refine flatMap_congr fun c hc => ?_
  rw [hU.decl c (h.knows_lineage (mem_reverse.1 hc))]

theorem has_mono (h : d.Traced U t) (hU : U'.Extends U) {m : Method} (hm : d.Has U m) : d.Has U' m := by
  rcases hm with hm | ⟨c, hc, hm⟩
  · exact .inl hm
  · exact .inr ⟨c, hc, by rwa [hU.decl c (h.knows_lineage hc)]⟩

theorem mono (h : d.Traced U t) (hU : U'.Extends U) : d.Traced U' t :=
  { h with
    bodies := fun m hm b hb => by rw [h.layout_mono hU]; exact h.bodies m hm b hb
    fields := fun f hf => by rw [h.layout_mono hU]; exact h.fields f hf
    lineage := fun c hc => by rw [hU.decl c (h.knows_lineage hc)]; exact h.lineage c hc
    vtable := fun m hm => h.has_mono hU (h.vtable m hm)
    tables := fun e he => by
      obtain ⟨hk, hlen, hms⟩ := h.tables e he
      exact ⟨hU.knows _ hk, by rw [hU.decl _ hk, hlen], fun m hm => h.has_mono hU (hms m hm)⟩ }

end TypeDecl.Traced

/-! ## The builtin declarations -/

namespace Builtin

variable (U : Universe) {t : Ty} {d : TypeDecl} {m : Method}

theorem traced_of_bodies (shape : d.Shaped t) (hf : d.fields = []) (hc : d.constructors = [])
    (owner : ∀ m ∈ d.methods, m.owner = t)
    (getter : ∀ p ∈ d.properties, p.owner = t ∧ p.getter ∈ d.methods ∧ p.setter = none)
    (bodies : ∀ m ∈ d.methods, m.body = none ∨ ∃ b, m.body = some b ∧ b.isForeign = false ∧ b.Serves [] m)
    (lineage : ∀ c ∈ d.lineage, (U.decl c).form = .classType) (vtable : ∀ m ∈ d.vtable, d.Has U m)
    (tables : ∀ e ∈ d.tables, U.Knows e.1 ∧ e.2.length = (U.decl e.1).methods.length ∧ ∀ m ∈ e.2, d.Has U m)
    (interfaces : d.tables.map (·.1) = d.interfaces) : d.Traced U t := by
  have hbody : ∀ m ∈ d.methods, ∀ b, m.body = some b → b.isForeign = false ∧ b.Serves (d.layout U) m := by
    intro m hm b hb
    rcases bodies m hm with hnone | ⟨b', hb', hforeign, hserves⟩
    · rw [hnone] at hb
      cases hb
    · obtain rfl : b' = b := some.inj (hb'.symm.trans hb)
      exact ⟨hforeign, hserves.mono nil_prefix⟩
  exact
    { shape, owner, lineage, vtable, tables, interfaces
      fieldOwner := by simp [hf]
      propertyOwner := fun p hp => (getter p hp).1
      getter := fun p hp => (getter p hp).2.1
      setter := fun p hp m hm => by rw [(getter p hp).2.2] at hm; cases hm
      bodies := fun m hm b hb => (hbody m hm b hb).2
      foreign := fun m hm b hb hforeign => by rw [(hbody m hm b hb).1] at hforeign; cases hforeign
      constructors := by simp [hc]
      fields := by simp [hf] }

theorem has_of_object (hl : .object ∈ d.lineage) (hm : m ∈ object.vtable) : d.Has U m := .inr ⟨.object, hl, hm⟩

theorem has_of_valueType (hl : .valueType ∈ d.lineage) (hm : m ∈ valueType.vtable) :
    d.Has U m := .inr ⟨.valueType, hl, hm⟩

theorem classes {bases : List Ty} (h : bases ⊆ [.object, .valueType, .enumBase]) :
    ∀ c ∈ bases, (U.decl c).form = .classType := by
  intro c hc
  have := h hc
  simp only [mem_cons, not_mem_nil, or_false] at this
  rcases this with rfl | rfl | rfl <;> rfl

theorem traced_object : object.Traced U .object := by
  refine traced_of_bodies U (by simp [TypeDecl.Shaped, object]) rfl rfl ?_ (fun _ h => nomatch h) ?_
    (fun _ h => nomatch h)
    (fun m hm => .inl hm) (fun _ h => nomatch h) rfl
  · simp [object, objectToString, objectEquals, objectHashCode]
  · simp [object, objectToString, objectEquals, objectHashCode, Body.isForeign, Body.Serves]

theorem traced_valueType : valueType.Traced U .valueType := by
  refine traced_of_bodies U (by simp [TypeDecl.Shaped, valueType]) rfl rfl ?_ (fun _ h => nomatch h) ?_
    (classes U (by simp [valueType])) (fun m hm => .inl hm) (fun _ h => nomatch h) rfl
  · simp [valueType, valueToString, valueEquals, valueHashCode]
  · simp [valueType, valueToString, valueEquals, valueHashCode, objectToString, objectEquals,
      objectHashCode, Body.isForeign, Body.Serves]

theorem comparable_entry (hm : m ∈ d.methods) : ∀ e ∈ [(Ty.comparable, [m])],
      U.Knows e.1 ∧ e.2.length = (U.decl e.1).methods.length ∧ ∀ n ∈ e.2, d.Has U n := by
  intro e he
  obtain rfl := mem_singleton.1 he
  refine ⟨trivial, rfl, fun n hn => ?_⟩
  obtain rfl := mem_singleton.1 hn
  exact .inl hm

theorem traced_enumBase : enumBase.Traced U .enumBase := by
  refine traced_of_bodies U (by simp [TypeDecl.Shaped, enumBase]) rfl rfl ?_ (fun _ h => nomatch h) ?_
    (classes U (by simp [enumBase])) (fun m hm => has_of_valueType U (by simp [enumBase]) hm)
    (comparable_entry U (by simp [enumBase])) rfl
  · simp [enumBase, scalarCompareTo]
  · simp [enumBase, scalarCompareTo, compareTo, Body.isForeign, Body.Serves]

theorem traced_scalar (p : Primitive) : (scalar p).Traced U p.type := by
  refine traced_of_bodies U (by simp [TypeDecl.Shaped, scalar]) rfl rfl ?_ (fun _ h => nomatch h) ?_
    (classes U (by simp [scalar])) (fun m hm => has_of_valueType U (by simp [scalar]) hm)
    (comparable_entry U (by simp [scalar])) rfl
  · simp [scalar, scalarCompareTo]
  · simp [scalar, scalarCompareTo, compareTo, Body.isForeign, Body.Serves]

theorem traced_string : string.Traced U .string := by
  refine traced_of_bodies U (by simp [TypeDecl.Shaped, string]) rfl rfl ?_ ?_ ?_
    (classes U (by simp [string])) ?_ (comparable_entry U (by simp [string])) rfl
  · simp [string, stringLength, stringEquals, stringHashCode, stringToUpper, stringContains,
      stringCompareTo]
  · simp [string]
  · simp [string, stringLength, stringEquals, stringHashCode, stringToUpper, stringContains,
      stringCompareTo, objectEquals, objectHashCode, Body.isForeign, Body.Serves]
  · intro m hm
    simp only [string, mem_cons, not_mem_nil, or_false] at hm
    rcases hm with rfl | rfl | rfl
    · exact has_of_object U (by simp [string]) (by simp [object])
    · exact .inl (by simp [string])
    · exact .inl (by simp [string])

theorem traced_below_object (shape : d.Shaped t) (hb : d.Bare) (hl : d.lineage = [.object])
    (hv : d.vtable = object.vtable) (hi : d.interfaces = []) : d.Traced U t := by
  refine traced_of_bodies U shape hb.fields hb.constructors ?_ ?_ ?_ ?_ ?_ ?_ ?_
  · simp [hb.methods]
  · simp [hb.properties]
  · simp [hb.methods]
  · rw [hl]
    exact classes U (by simp)
  · rw [hv]
    exact fun m hm => has_of_object U (by simp [hl]) hm
  · simp [hb.tables]
  · simp [hb.tables, hi]

theorem traced_interface {name : String} (ho : m.owner = t) (hb : m.body = none) :
    TypeDecl.Traced U t { name := name, form := .interface, methods := [m] } := by
  refine traced_of_bodies U ⟨rfl, rfl, rfl⟩ rfl rfl ?_ (forall_mem_nil _) ?_ (forall_mem_nil _)
    (forall_mem_nil _) (forall_mem_nil _) rfl
  · exact forall_mem_singleton.2 ho
  · exact forall_mem_singleton.2 (.inl hb)

theorem traced_of_builtin (h : ∀ i, t ≠ .declared i) : (U.decl t).Traced U t := by
  cases t with
  | object => exact traced_object U
  | valueType => exact traced_valueType U
  | enumBase => exact traced_enumBase U
  | null =>
    exact traced_below_object U (by simp [TypeDecl.Shaped, Universe.decl, null])
      ⟨rfl, rfl, rfl, rfl, rfl⟩ rfl rfl rfl
  | bool => exact traced_scalar U .bool
  | int32 => exact traced_scalar U .int32
  | int64 => exact traced_scalar U .int64
  | float64 => exact traced_scalar U .float64
  | string => exact traced_string U
  | comparable | disposable => exact traced_interface U rfl rfl
  | declared i => exact absurd rfl (h i)
  | array e => exact traced_below_object U ⟨e, rfl⟩ ⟨rfl, rfl, rfl, rfl, rfl⟩ rfl rfl rfl

end Builtin

/-! ## Carrying out a description -/

/-- What a draft holds is its own or stems from a base. -/
structure Draft.Traced (U : Universe) (i : Nat) (d : Draft) : Prop extends d.decl.Owned U d.self where
  self : d.self = .declared i
  shape : (d.decl.form = .struct ∧ d.decl.lineage = [.valueType, .object]) ∨
    (d.decl.form = .classType ∧ .object ∈ d.decl.lineage) ∨
    (d.decl.form = .interface ∧ d.decl.lineage = [] ∧ d.decl.fields = [])
  constructors : ∀ c ∈ d.decl.constructors, c.owner = d.self ∧ c.IsHosted
  pending : ∀ p ∈ d.pending, p.2.owner = d.self ∧ p.2.IsHosted
  plain : d.decl.form = .interface → ∀ p ∈ d.pending, p.1 = .plain

variable {v : List Method}

/-- A placed method is the one that waited, but for its slot and result. -/
structure Draft.Placed (p : Dispatch × Method) (m : Method) : Prop where
  owner : m.owner = p.2.owner
  body : m.body = p.2.body
  name : m.name = p.2.name
  params : m.params = p.2.params
  isVirtual : m.isVirtual = p.2.isVirtual
  slot : p.1 ≠ .plain → m.slot.isSome = true
  plain : p.1 = .plain → m.slot = p.2.slot

theorem Draft.placed_of_place {w : List Method} {p : Dispatch × Method} (h : place v p = .ok (w, m)) :
    Draft.Placed p m ∧ ∀ n ∈ w, n = m ∨ n ∈ v := by
  obtain ⟨dispatch, n⟩ := p
  cases dispatch with
  | plain =>
    cases h
    exact ⟨⟨rfl, rfl, rfl, rfl, rfl, fun h => absurd rfl h, fun _ => rfl⟩, fun _ hn => .inr hn⟩
  | newSlot =>
    cases h
    refine ⟨⟨rfl, rfl, rfl, rfl, rfl, fun _ => rfl, fun h => by cases h⟩, fun k hk => ?_⟩
    rcases mem_append.1 hk with hk | hk
    · exact .inr hk
    · exact .inl (mem_singleton.1 hk)
  | sameSlot =>
    simp only [place] at h
    split at h
    · cases h
    · cases h
      exact ⟨⟨rfl, rfl, rfl, rfl, rfl, fun _ => rfl, fun h => by cases h⟩,
        fun k hk => (mem_or_eq_of_mem_set hk).symm⟩

variable {ps : List (Dispatch × Method)}

theorem Draft.placed_of_placeAll {v w ms : List Method} (h : placeAll v ps = .ok (w, ms)) :
    List.Forall₂ Draft.Placed ps ms ∧ ∀ n ∈ w, n ∈ ms ∨ n ∈ v := by
  induction ps generalizing v ms with
  | nil =>
    cases h
    exact ⟨.nil, fun _ hn => .inr hn⟩
  | cons p ps ih =>
    obtain ⟨u, m, ms, hp, hrest, rfl⟩ := placeAll_cons h
    obtain ⟨hpm, hu⟩ := placed_of_place hp
    obtain ⟨hms, hw⟩ := ih hrest
    refine ⟨.cons hpm hms, fun n hn => ?_⟩
    rcases hw n hn with hn | hn
    · exact .inl (mem_cons_of_mem _ hn)
    · rcases hu n hn with rfl | hn
      · exact .inl mem_cons_self
      · exact .inr hn

theorem Draft.placeAll_plain {v w ms : List Method} (hps : ∀ p ∈ ps, p.1 = .plain)
    (h : placeAll v ps = .ok (w, ms)) : w = v := by
  induction ps generalizing v ms with
  | nil =>
    cases h
    rfl
  | cons p ps ih =>
    obtain ⟨dispatch, n⟩ := p
    obtain rfl : dispatch = .plain := hps (dispatch, n) mem_cons_self
    obtain ⟨u, m, ms, hp, hrest, rfl⟩ := placeAll_cons h
    cases hp
    exact ih (fun q hq => hps q (mem_cons_of_mem _ hq)) hrest

/-- The table of an interface has an entry for each method, in the vtable or among the candidates. -/
theorem Draft.tableFor_traced {candidates : List Method} {i : Ty} {e : Ty × List Method}
    (h : tableFor U v candidates i = .ok e) :
    e.1 = i ∧ e.2.length = (U.decl i).methods.length ∧ ∀ m ∈ e.2, m ∈ v ∨ m ∈ candidates := by
  obtain ⟨ms, hms, h⟩ := Except.bind_eq_ok.1 h
  cases h
  have hf := Except.mapM_eq_ok hms
  refine ⟨rfl, hf.length_eq.symm, fun m hm => ?_⟩
  obtain ⟨im, -, hat⟩ := exists_mem_of_forall₂ hf hm
  split at hat
  · rename_i found hfound
    cases hat
    obtain ⟨n, hn, heq⟩ := map_eq_some_iff.1 hfound
    rw [← heq]
    unfold inSlot?
    -- the slot of the candidate leads into the vtable, if it leads anywhere
    cases hslot : n.slot.bind (v[·]?) with
    | none => exact .inr (mem_of_find?_eq_some hn)
    | some r =>
      obtain ⟨j, -, hj⟩ := bind_eq_some_iff.1 hslot
      exact .inl (mem_of_getElem? hj)
  · cases hat

namespace Draft.Traced

variable {U : Universe} {i : Nat} {d d' : Draft} {decl : TypeDecl}

theorem ofEmpty (hf : decl.fields = []) (hp : decl.properties = []) (hm : decl.methods = [])
    (hc : decl.constructors = []) (shape : (decl.form = .struct ∧ decl.lineage = [.valueType, .object]) ∨
      (decl.form = .classType ∧ .object ∈ decl.lineage) ∨
      (decl.form = .interface ∧ decl.lineage = [] ∧ decl.fields = []))
    (lineage : ∀ c ∈ decl.lineage, (U.decl c).form = .classType) :
    Draft.Traced U i { self := .declared i, decl := decl } where
  self := rfl
  shape := shape
  owner := by simp [hm]
  fieldOwner := by simp [hf]
  propertyOwner := by simp [hp]
  getter := by simp [hp]
  setter := by simp [hp]
  bodies := by simp [hm]
  constructors := by simp [hc]
  fields := by simp [hf]
  lineage := lineage
  pending := by simp
  plain := by simp

theorem adds (h : d.Adds U d') (hd : d.Traced U i) : d'.Traced U i := by
  cases h with
  | close => exact { hd with }
  | field f hform _ ho hindex =>
    have hlayout : TypeDecl.layout U { d.decl with fields := d.decl.fields ++ [f] } = d.decl.layout U ++ [f] :=
      (List.append_assoc _ _ _).symm
    have hprefix : d.decl.layout U <+: TypeDecl.layout U { d.decl with fields := d.decl.fields ++ [f] } :=
      ⟨[f], hlayout.symm⟩
    refine { hd with fieldOwner := forall_mem_concat hd.fieldOwner ho, bodies := ?_, fields := ?_, shape := ?_ }
    · exact fun m hm b hb => (hd.bodies m hm b hb).mono hprefix
    · rw [hlayout]
      refine forall_mem_concat (fun g hg => ?_) ?_
      · have hat := hd.fields g hg
        rw [List.getElem?_append_left (List.getElem?_eq_some_iff.1 hat).1]
        exact hat
      · rw [hindex]
        exact List.getElem?_concat_length
    · rcases hd.shape with h | h | h
      · exact .inl h
      · exact .inr (.inl h)
      · exact absurd h.1 hform
  | property p ho hp =>
    have hold : ∀ m ∈ d.decl.methods, m ∈ d.decl.methods ++ p.getter :: p.setter.toList :=
      fun m hm => List.mem_append_left _ hm
    exact { hd with
      owner := p.forall_mem_accessors hd.owner (hp.owner.trans ho) fun m hm => (hp.setterOwner m hm).1.trans ho
      propertyOwner := forall_mem_concat hd.propertyOwner ho
      getter := forall_mem_concat (fun q hq => hold _ (hd.getter q hq)) (by simp)
      setter := forall_mem_concat (fun q hq m hm => hold m (hd.setter q hq m hm)) fun m hm => by simp [hm]
      bodies := p.forall_mem_accessors hd.bodies hp.getterBody hp.setterBody }
  | method k m ho hb _ hplain =>
    exact { hd with
      pending := forall_mem_concat hd.pending ⟨ho, hb⟩
      plain := fun hform => forall_mem_concat (hd.plain hform) (hplain hform) }
  | constructor c ho hb => exact { hd with constructors := forall_mem_concat hd.constructors ⟨ho, hb⟩ }
  | interface j => exact { hd with }

/-- The bases of a class are classes, with `object` at their end. -/
theorem start {name : String} {kind : DraftKind} (hU : ∀ t, U.Knows t → (U.decl t).Traced U t)
    (h : start U (.declared i) name kind = .ok d) : d.Traced U i := by
  cases starts h with
  | struct => exact ofEmpty rfl rfl rfl rfl (.inl ⟨rfl, rfl⟩) (classes U (by simp))
  | interface => exact ofEmpty rfl rfl rfl rfl (.inr (.inr ⟨rfl, rfl, rfl⟩)) (fun _ h => nomatch h)
  | @classType b hk hs hsealed =>
    have hbase := hU _ hk
    -- array and delegate types are sealed
    have hclass : (U.decl b).form = .classType := by
      have hshape := hbase.shape
      unfold TypeDecl.Shaped at hshape
      unfold Universe.storage at hs
      cases hform : (U.decl b).form with
      | classType => rfl
      | array =>
        simp only [hform] at hshape
        obtain ⟨e, he⟩ := hshape
        rw [he] at hsealed
        cases hsealed
      | delegate params result =>
        simp only [hform] at hshape
        rw [hshape.2.2] at hsealed
        cases hsealed
      | _ => simp [hform] at hs
    have hobject := hbase.shape
    simp only [TypeDecl.Shaped, hclass] at hobject
    refine ofEmpty rfl rfl rfl rfl (.inr (.inl ⟨rfl, hobject⟩)) fun c hc => ?_
    rcases mem_cons.1 hc with rfl | hc
    · exact hclass
    · exact hbase.lineage c hc

theorem finish (hU : ∀ t, U.Knows t → (U.decl t).Traced U t) (hd : d.Traced U i) (hp : d.Proper U)
    (h : d.finish U = .ok decl) : decl.Traced U (.declared i) := by
  obtain ⟨⟨vtable, placed⟩, hplace, h⟩ := Except.bind_eq_ok.1 h
  obtain ⟨tables, htables, h⟩ := Except.bind_eq_ok.1 h
  cases h
  obtain ⟨hplaced, hvtable⟩ := placed_of_placeAll hplace
  -- a placed method is one of those that waited, up to its slot and result
  have hnew : ∀ m ∈ placed, m.owner = d.self ∧ m.IsHosted := by
    intro m hm
    obtain ⟨p, hp, hpm⟩ := exists_mem_of_forall₂ hplaced hm
    obtain ⟨hpo, hph⟩ := hd.pending p hp
    exact ⟨hpm.owner.trans hpo, fun b h => hph b (hpm.body.symm.trans h)⟩
  have hhas : ∀ m ∈ vtable, TypeDecl.Has U
      { d.decl with methods := d.decl.methods ++ placed, vtable := vtable, tables := tables } m := by
    intro m hm
    rcases hvtable m hm with hm | hm
    · exact .inl (mem_append_right _ hm)
    · rcases hp.base with hb | ⟨b, hb, hk⟩
      · simp [hb] at hm
      · simp only [hb, chain, head?_cons, map_some, getD_some] at hm
        show _ ∨ ∃ c ∈ d.decl.lineage, _
        rw [hb]
        rcases (hU b hk).vtable m hm with hm | ⟨c, hc, hm⟩
        · exact .inr ⟨b, mem_cons_self, hm⟩
        · exact .inr ⟨c, mem_cons_of_mem _ hc, hm⟩
  have hform := Except.mapM_eq_ok htables
  refine
    { owner := ?_
      fieldOwner := fun f hf => (hd.fieldOwner f hf).trans hd.self
      propertyOwner := fun p hp => (hd.propertyOwner p hp).trans hd.self
      getter := fun p hp => mem_append_left _ (hd.getter p hp)
      setter := fun p hp m hm => mem_append_left _ (hd.setter p hp m hm)
      bodies := ?_
      shape := ?_
      foreign := fun _ _ _ _ _ => ⟨i, rfl⟩
      constructors := fun c hc => ⟨(hd.constructors c hc).1.trans hd.self, (hd.constructors c hc).2⟩
      fields := hd.fields
      lineage := hd.lineage
      vtable := hhas
      tables := ?_
      interfaces := ?_ }
  · intro m hm
    rcases mem_append.1 hm with hm | hm
    · exact (hd.owner m hm).trans hd.self
    · exact (hnew m hm).1.trans hd.self
  · intro m hm b hb
    rcases mem_append.1 hm with hm | hm
    · exact hd.bodies m hm b hb
    · exact (hnew m hm).2.serves _ b hb
  · unfold TypeDecl.Shaped
    rcases hd.shape with ⟨hf, hl⟩ | ⟨hf, hl⟩ | ⟨hf, hl, hfields⟩
    · simp only [hf]
      exact ⟨⟨i, rfl⟩, hl⟩
    · simp only [hf]
      exact mem_cons_of_mem _ hl
    · have hempty := placeAll_plain (hd.plain hf) hplace
      simp only [hf]
      exact ⟨hl, hfields, by simpa [hl] using hempty⟩
  · intro e he
    obtain ⟨j, hj, htable⟩ := exists_mem_of_forall₂ hform he
    obtain ⟨rfl, hlen, hms⟩ := tableFor_traced htable
    refine ⟨hp.knows_interface hj, hlen, fun m hm => ?_⟩
    rcases hms m hm with hm | hm
    · exact hhas m hm
    · rcases mem_append.1 hm with hm | hm
      · exact .inl hm
      · obtain ⟨c, hc, hm⟩ := mem_flatMap.1 hm
        exact .inr ⟨c, hc, hm⟩
  · show tables.map _ = d.decl.interfaces
    have hnames : List.Forall₂ (· = ·) d.decl.interfaces (tables.map (·.1)) :=
      forall₂_map_right_iff.2 (hform.imp fun _ _ h => (tableFor_traced h).1.symm)
    rw [forall₂_eq_eq_eq] at hnames
    exact hnames.symm

end Draft.Traced

/-! ## Declared universes -/

namespace Universe

def AllTraced (U : Universe) : Prop := ∀ t, U.Knows t → (U.decl t).Traced U t

variable {U : Universe}

theorem Declared.allTraced (h : U.Declared) : U.AllTraced := by
  refine h.every (fun hext hd => hd.mono hext) traced_of_builtin fun {U d} _ ih hd => ?_
  cases hd with
  | described hstart hsteps hfinish =>
    exact (adds_keep Draft.Traced.adds hsteps (.start ih hstart)).finish ih
      (adds_keep Draft.Proper.adds hsteps (.start hstart)) hfinish
  | enumeration name p names hp =>
    exact traced_of_bodies U ⟨hp, rfl, ⟨rfl, rfl, rfl, rfl, rfl⟩⟩ rfl rfl (forall_mem_nil _)
      (forall_mem_nil _) (forall_mem_nil _) (classes U (by simp))
      (fun m hm => has_of_valueType U (by simp) hm) (forall_mem_nil _) rfl
  | delegate =>
    exact traced_below_object U ⟨rfl, ⟨rfl, rfl, rfl, rfl, rfl⟩, rfl⟩ ⟨rfl, rfl, rfl, rfl, rfl⟩ rfl rfl rfl

/-! ## Members by owner and name -/

variable {t t' : Ty} {name : String} {f : Field} {p : Property}

theorem Declared.owns (hU : U.Declared) (t : Ty) :
    (∀ f ∈ (U.decl t).fields, f.owner = t) ∧ ∀ p ∈ (U.decl t).properties, p.owner = t := by
  by_cases hk : U.Knows t
  · exact ⟨(hU.allTraced t hk).fieldOwner, (hU.allTraced t hk).propertyOwner⟩
  · rw [decl_of_not_knows hk]
    exact ⟨forall_mem_nil _, forall_mem_nil _⟩

theorem Declared.find_field (hU : U.Declared) (h : U.field? t name = some f) :
    (U.decl f.owner).fields.find? (·.name = name) = some f := by
  obtain ⟨c, -, hc⟩ := exists_of_findSome?_eq_some h
  rwa [(hU.owns c).1 f (mem_of_find?_eq_some hc)]

theorem Declared.find_property (hU : U.Declared) (h : U.property? t name = some p) :
    p.owner ∈ U.chain t ∧ (U.decl p.owner).properties.find? (·.name = name) = some p := by
  obtain ⟨c, hmem, hc⟩ := exists_of_findSome?_eq_some h
  rw [(hU.owns c).2 p (mem_of_find?_eq_some hc)]
  exact ⟨hmem, hc⟩

theorem Declared.field_ne_property (hU : U.Declared) {name' : String} (hf : U.field? t name = some f)
    (hnone : U.field? t' name' = none) (hp : U.property? t' name' = some p) (hname : name = name') :
    f.owner ≠ p.owner := by
  intro howner
  have hfree := findSome?_eq_none_iff.1 hnone p.owner (hU.find_property hp).1
  have hfound := hU.find_field hf
  rw [howner, hname, hfree] at hfound
  cases hfound

theorem Declared.member_unique (hU : U.Declared) {m m' : Member} (h : U.member? t m.name = some m)
    (h' : U.member? t' m'.name = some m') (howner : m.owner = m'.owner) (hname : m.name = m'.name) : m = m' := by
  -- a member that is found is a field, or a property where there is no such field
  have hcases : ∀ {t : Ty} {m : Member}, U.member? t m.name = some m →
      (∃ f, m = .field f ∧ U.field? t m.name = some f) ∨
        ∃ p, m = .property p ∧ U.field? t m.name = none ∧ U.property? t m.name = some p := by
    intro t m h
    unfold member? at h
    split at h
    · next f hf => cases h; exact .inl ⟨f, rfl, hf⟩
    · next hnone =>
      obtain ⟨p, hp, rfl⟩ := map_eq_some_iff.1 h
      exact .inr ⟨p, rfl, hnone, hp⟩
  rcases hcases h with ⟨f, rfl, hf⟩ | ⟨p, rfl, hnone, hp⟩ <;>
    rcases hcases h' with ⟨g, rfl, hg⟩ | ⟨q, rfl, hnone', hq⟩
  · have hfound := hU.find_field hf
    have hfound' := hU.find_field hg
    simp only [Member.owner] at howner
    rw [howner, hname, hfound'] at hfound
    rw [some.inj hfound]
  · exact absurd howner (hU.field_ne_property hf hnone' hq hname)
  · exact absurd howner.symm (hU.field_ne_property hg hnone hp hname.symm)
  · have hfound := (hU.find_property hp).2
    have hfound' := (hU.find_property hq).2
    simp only [Member.owner] at howner
    rw [howner, hname, hfound'] at hfound
    rw [some.inj hfound]

end Universe

end TreeMachine
