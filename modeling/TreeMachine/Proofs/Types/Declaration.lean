import TreeMachine.Proofs.Types.Drafts
import TreeMachine.Tree.Build

/-!
# What declarations promise to callers

What callers of methods rely on in a declared universe:

* **`Declared.getter_shape`**, **`Declared.setter_shape`**, **`Declared.constructor_shape`**: accessors
  and constructors take and give what their declaration asks for, and are never static.
* **`Declared.resolve_signature`**: the implementation that a value type has for one of its methods has
  the signature of the method. Calls on values are bound when they are compiled, so the signature that
  the caller checked must be the signature of what is called.

Every fact is proved of a single declaration first (`TypeDecl.Laid`): the builtin declarations have it,
carrying out a description establishes it, and adding declarations to a universe keeps it.
-/

open List Option

namespace TreeMachine

open Universe Builtin

structure Method.SameSignature (m n : Method) : Prop where
  name : m.name = n.name
  params : m.params = n.params
  result : m.result = n.result
  isStatic : m.isStatic = n.isStatic

namespace Method.SameSignature

theorem refl (m : Method) : m.SameSignature m := ⟨rfl, rfl, rfl, rfl⟩

theorem trans {m n k : Method} (h : m.SameSignature n) (h' : n.SameSignature k) : m.SameSignature k :=
  ⟨h.name.trans h'.name, h.params.trans h'.params, h.result.trans h'.result, h.isStatic.trans h'.isStatic⟩

end Method.SameSignature

/-! ## Vtables

A vtable *refines* another one if it has an entry of the same signature wherever the other has one.
Placing methods refines the vtable, because an override takes over the signature of its slot. -/

/-- Each entry of `v` has an entry of the same signature in `w`. -/
def RefinesVtable (w v : List Method) : Prop :=
  ∀ (k : Nat) (m : Method), v[k]? = some m → ∃ n, w[k]? = some n ∧ n.SameSignature m

theorem RefinesVtable.refl (v : List Method) : RefinesVtable v v :=
  fun _ m h => ⟨m, h, .refl m⟩

variable {v w : List Method}

theorem RefinesVtable.trans {u : List Method} (h : RefinesVtable w v) (h' : RefinesVtable v u) :
    RefinesVtable w u := by
  intro k m hm
  obtain ⟨n, hn, hnm⟩ := h' k m hm
  obtain ⟨o, ho, hon⟩ := h k n hn
  exact ⟨o, ho, hon.trans hnm⟩

def IndexedVtable (v : List Method) : Prop :=
  ∀ (k : Nat) (m : Method), v[k]? = some m → m.slot = some k ∧ m.isStatic = false

/-- A method has its own slot, if any, in a vtable: the entry there has its signature. -/
def FitsVtable (v : List Method) (m : Method) : Prop :=
  ∀ k : Nat, m.slot = some k → ∃ n : Method, v[k]? = some n ∧ n.SameSignature m

variable {m : Method}

theorem FitsVtable.mono (h : FitsVtable v m) (hw : RefinesVtable w v) : FitsVtable w m := by
  intro k hk
  obtain ⟨n, hn, hnm⟩ := h k hk
  obtain ⟨o, ho, hon⟩ := hw k n hn
  exact ⟨o, ho, hon.trans hnm⟩

theorem IndexedVtable.fits (hv : IndexedVtable v) {k : Nat} (hm : v[k]? = some m) : FitsVtable v m := by
  intro j hj
  obtain rfl : k = j := some.inj ((hv k m hm).1.symm.trans hj)
  exact ⟨m, hm, .refl m⟩

theorem FitsVtable.inSlot (h : FitsVtable v m) : ((inSlot? v m).getD m).SameSignature m := by
  unfold inSlot?
  cases hs : m.slot with
  | none => exact .refl m
  | some k =>
    obtain ⟨n, hn, hnm⟩ := h k hs
    simpa [hn] using hnm

theorem FitsVtable.fits_inSlot (hv : IndexedVtable v) (h : FitsVtable v m) :
    FitsVtable v ((inSlot? v m).getD m) := by
  unfold inSlot?
  cases hs : m.slot with
  | none => exact h
  | some k =>
    obtain ⟨n, hn, -⟩ := h k hs
    simpa [hn] using hv.fits hn

structure Fills (v w : List Method) (m : Method) : Prop where
  entry : ∀ k : Nat, m.slot = some k → w[k]? = some m
  others : ∀ k : Nat, m.slot ≠ some k → w[k]? = v[k]?
  same : ∀ (k : Nat) (n : Method), m.slot = some k → v[k]? = some n → m.SameSignature n
  isStatic : ∀ k : Nat, m.slot = some k → m.isStatic = false

theorem Draft.fills_of_place {p : Dispatch × Method} (hp : Waits p) (hv : IndexedVtable v)
    (h : Draft.place v p = .ok (w, m)) : Fills v w m := by
  obtain ⟨dispatch, n⟩ := p
  cases dispatch with
  | plain =>
    cases h
    have hslot : ∀ k, m.slot ≠ some k := fun k hk => by rw [hp.slot] at hk; cases hk
    exact ⟨fun k hk => absurd hk (hslot k), fun _ _ => rfl, fun k _ hk => absurd hk (hslot k),
      fun k hk => absurd hk (hslot k)⟩
  | newSlot =>
    cases h
    refine ⟨fun k hk => ?_, fun k hk => ?_, fun k m hk hm => ?_, fun _ _ => hp.isStatic (by simp)⟩
    · obtain rfl : v.length = k := some.inj hk
      exact List.getElem?_concat_length
    · have hne : v.length ≠ k := fun heq => hk (congrArg some heq)
      rw [List.getElem?_append]
      split
      · rfl
      · rw [List.getElem?_eq_none (by simp; omega), List.getElem?_eq_none (by omega)]
    · obtain rfl : v.length = k := some.inj hk
      exact absurd (List.getElem?_eq_some_iff.1 hm).1 (Nat.lt_irrefl _)
  | sameSlot =>
    simp only [Draft.place] at h
    split at h
    · cases h
    · rename_i i hi
      cases h
      obtain ⟨hlt, hfound, -⟩ := List.findIdx?_eq_some_iff_getElem.1 hi
      simp only [Bool.and_eq_true, decide_eq_true_eq] at hfound
      have hstatic : n.isStatic = false := hp.isStatic (by simp)
      refine ⟨fun k hk => ?_, fun k hk => ?_, fun k m hk hm => ?_, fun _ _ => hstatic⟩
      · obtain rfl : i = k := some.inj hk
        exact List.getElem?_set_self hlt
      · exact List.getElem?_set_ne (fun heq => hk (congrArg some heq))
      · -- the override has the name and the parameters it looked for and takes over the result
        obtain rfl : i = k := some.inj hk
        obtain rfl : v[i] = m := some.inj ((List.getElem?_eq_getElem hlt).symm.trans hm)
        exact ⟨hfound.1.symm, hfound.2.symm, by simp [hm], hstatic.trans (hv i _ hm).2.symm⟩

theorem Fills.refines (h : Fills v w m) (hv : IndexedVtable v) :
    RefinesVtable w v ∧ IndexedVtable w ∧ FitsVtable w m := by
  refine ⟨fun k n hn => ?_, fun k n hn => ?_, fun k hk => ⟨m, h.entry k hk, .refl m⟩⟩
  · by_cases hk : m.slot = some k
    · exact ⟨m, h.entry k hk, h.same k n hk hn⟩
    · exact ⟨n, (h.others k hk).trans hn, .refl n⟩
  · by_cases hk : m.slot = some k
    · obtain rfl : m = n := some.inj ((h.entry k hk).symm.trans hn)
      exact ⟨hk, h.isStatic k hk⟩
    · exact hv k n ((h.others k hk).symm.trans hn)

theorem Draft.placeAll_cons {p : Dispatch × Method} {ps : List (Dispatch × Method)} {ms : List Method}
    (h : Draft.placeAll v (p :: ps) = .ok (w, ms)) :
    ∃ u m ms', Draft.place v p = .ok (u, m) ∧ Draft.placeAll u ps = .ok (w, ms') ∧ ms = m :: ms' := by
  obtain ⟨⟨u, m⟩, hp, h⟩ := Except.bind_eq_ok.1 h
  obtain ⟨⟨w', ms'⟩, hrest, h⟩ := Except.bind_eq_ok.1 h
  cases h
  exact ⟨u, m, ms', hp, hrest, rfl⟩

theorem Draft.placeAll_refines {ps : List (Dispatch × Method)} {ms : List Method} (hps : ∀ p ∈ ps, Waits p)
    (hv : IndexedVtable v) (h : Draft.placeAll v ps = .ok (w, ms)) :
    RefinesVtable w v ∧ IndexedVtable w ∧ ∀ m ∈ ms, FitsVtable w m := by
  induction ps generalizing v ms with
  | nil =>
    cases h
    exact ⟨.refl _, hv, by simp⟩
  | cons p ps ih =>
    obtain ⟨u, m, ms, hp, hrest, rfl⟩ := Draft.placeAll_cons h
    obtain ⟨huv, hu, hm⟩ := (Draft.fills_of_place (hps p (by simp)) hv hp).refines hv
    obtain ⟨hwu, hw, hms⟩ := ih (fun q hq => hps q (by simp [hq])) hu hrest
    refine ⟨hwu.trans huv, hw, fun n hn => ?_⟩
    rcases mem_cons.1 hn with rfl | hn
    · exact hm.mono hwu
    · exact hms n hn

/-! ## Declarations and their tables

What one declaration promises, given the universe its tables were laid out over. A type is *known* to
a universe if the universe has its declaration; adding declarations does not change those of known
types, so the promise is kept as the universe grows. -/

/-- The bases that values of a declaration box to are among its bases. -/
def TypeDecl.HasValueBases (d : TypeDecl) : Prop :=
  match d.form with
  | .scalar _ | .struct => .valueType ∈ d.lineage ∧ .object ∈ d.lineage
  | .enumeration _ _ => .enumBase ∈ d.lineage ∧ .valueType ∈ d.lineage ∧ .object ∈ d.lineage
  | _ => True

structure TypeDecl.Accessible (d : TypeDecl) : Prop where
  getter : ∀ p ∈ d.properties, p.getter.params = [] ∧ p.getter.result = p.type ∧
    p.getter.isStatic = false ∧ p.getter.slot = none
  setter : ∀ p ∈ d.properties, ∀ m, p.setter = some m → m.params = [p.type] ∧ m.result = none ∧
    m.isStatic = false ∧ m.slot = none
  constructor : ∀ c ∈ d.constructors, c.result = none ∧ c.isStatic = false

/-- What a declaration promises to those who call its methods. -/
structure TypeDecl.Laid (U : Universe) (d : TypeDecl) : Prop extends d.Accessible where
  indexed : IndexedVtable d.vtable
  methods : ∀ m ∈ d.methods, FitsVtable d.vtable m
  /-- The vtable of the nearest base is refined. -/
  base : d.lineage = [] ∨
    ∃ b, d.lineage = U.chain b ∧ U.Knows b ∧ RefinesVtable d.vtable (U.decl b).vtable
  /-- Interface tables hold implementations with the signatures of the interface. -/
  tables : ∀ e ∈ d.tables, U.Knows e.1 ∧ ∀ (k : Nat) (im found : Method),
    (U.decl e.1).methods[k]? = some im → e.2[k]? = some found →
      found.name = im.name ∧ found.params = im.params ∧ found.result = im.result ∧
        found.isStatic = false ∧ FitsVtable d.vtable found
  bases : d.vtable = [] ∨ d.HasValueBases

namespace TypeDecl.Laid

theorem mono {U U' : Universe} {d : TypeDecl} (h : d.Laid U) (hU : U'.Extends U) : d.Laid U' :=
  { h with
    base := by
      rcases h.base with hb | ⟨b, hb, hk, hr⟩
      · exact .inl hb
      · refine .inr ⟨b, ?_, hU.knows b hk, ?_⟩
        · rw [hb, chain, chain, hU.decl b hk]
        · rwa [hU.decl b hk]
    tables := fun e he => by
      obtain ⟨hk, ht⟩ := h.tables e he
      exact ⟨hU.knows _ hk, by rwa [hU.decl _ hk]⟩ }

theorem empty (U : Universe) : (default : TypeDecl).Laid U where
  getter := fun _ h => nomatch h
  setter := fun _ h => nomatch h
  constructor := fun _ h => nomatch h
  indexed := fun k m h => by simp [default, instInhabitedTypeDecl.default] at h
  methods := fun _ h => nomatch h
  base := .inl rfl
  tables := fun _ h => nomatch h
  bases := .inl rfl

end TypeDecl.Laid

namespace Universe

def AllLaid (U : Universe) : Prop := ∀ t, (U.decl t).Laid U

theorem allLaid_of_knows {U : Universe} (h : ∀ t, U.Knows t → (U.decl t).Laid U) : U.AllLaid := by
  intro t
  by_cases hk : U.Knows t
  · exact h t hk
  · rw [decl_of_not_knows hk]
    exact .empty U

/-- Induction on the number of bases: the nearest base has one fewer. -/
theorem AllLaid.inductionOn {U : Universe} (hU : U.AllLaid) {P : Ty → Prop} (t : Ty)
    (root : ∀ t, (U.decl t).lineage = [] → P t)
    (base : ∀ t b, (U.decl t).lineage = U.chain b → RefinesVtable (U.decl t).vtable (U.decl b).vtable → P b → P t) :
    P t := by
  generalize hn : (U.decl t).lineage.length = n
  induction n generalizing t with
  | zero => exact root t (length_eq_zero_iff.1 hn)
  | succ n ih =>
    rcases (hU t).base with hb | ⟨b, hb, -, hr⟩
    · exact root t hb
    · refine base t b hb hr (ih b ?_)
      rw [hb] at hn
      exact Nat.succ.inj hn

theorem AllLaid.refines {U : Universe} (hU : U.AllLaid) {t c : Ty} (hc : c ∈ U.chain t) :
    RefinesVtable (U.decl t).vtable (U.decl c).vtable := by
  refine hU.inductionOn (P := fun t => c ∈ U.chain t → RefinesVtable (U.decl t).vtable (U.decl c).vtable) t
    (fun t ht hc => ?_) (fun t b hb hr ih hc => ?_) hc
  · rw [chain, ht, mem_singleton] at hc
    exact hc ▸ .refl _
  · rcases mem_cons.1 hc with rfl | hc
    · exact .refl _
    · exact hr.trans (ih (hb ▸ hc))

end Universe

/-! ## The builtin declarations -/

namespace Builtin

theorem indexed_nil : IndexedVtable [] := fun k m h => by simp at h

/-- The builtin vtables have the slots of `object`, in order. -/
theorem slots_of_builtin {v : List Method} (hv : v = object.vtable ∨ v = valueType.vtable ∨ v = string.vtable) :
    IndexedVtable v ∧ RefinesVtable v object.vtable := by
  constructor <;> intro k m h <;> rcases hv with rfl | rfl | rfl <;> match k with
    | 0 | 1 | 2 => cases h; first | exact ⟨rfl, rfl⟩ | exact ⟨_, rfl, rfl, rfl, rfl, rfl⟩

variable {m : Method}

theorem fits_of_no_slot (v : List Method) (h : m.slot = none) : FitsVtable v m := by
  intro k hk
  rw [h] at hk
  cases hk

variable (U : Universe) {d : TypeDecl}

/-- Declarations whose only table is one for `IComparable`, with a comparison of their own. -/
theorem laid_of_tables (hp : ∀ p ∈ d.properties, (p.getter.params = [] ∧ p.getter.result = p.type ∧
      p.getter.isStatic = false ∧ p.getter.slot = none) ∧ p.setter = none)
    (hc : d.constructors = []) (hv : IndexedVtable d.vtable) (hm : ∀ m ∈ d.methods, m.slot = none ∨ m ∈ d.vtable)
    (base : d.lineage = [] ∨ ∃ b, d.lineage = U.chain b ∧ U.Knows b ∧ RefinesVtable d.vtable (U.decl b).vtable)
    (ht : d.tables = [] ∨ ∃ m, d.tables = [(.comparable, [m])] ∧ m.SameSignature compareTo ∧ m.slot = none)
    (bases : d.vtable = [] ∨ d.HasValueBases) : d.Laid U where
  getter := fun p h => (hp p h).1
  setter := fun p h m hm => by rw [(hp p h).2] at hm; cases hm
  constructor := by simp [hc]
  indexed := hv
  methods := fun m h => by
    rcases hm m h with hslot | hmem
    · exact fits_of_no_slot _ hslot
    · obtain ⟨k, hk⟩ := mem_iff_getElem?.1 hmem
      exact hv.fits hk
  base := base
  tables := fun e he => by
    rcases ht with ht | ⟨m, ht, hsame, hslot⟩
    · rw [ht] at he
      cases he
    · rw [ht] at he
      obtain rfl := mem_singleton.1 he
      refine ⟨trivial, fun k im found him hfound => ?_⟩
      match k with
      | 0 =>
        cases him
        cases hfound
        exact ⟨hsame.name, hsame.params, hsame.result, hsame.isStatic, fits_of_no_slot _ hslot⟩
  bases := bases

theorem laid_of_methods (hp : d.properties = []) (hc : d.constructors = []) (ht : d.tables = [])
    (hv : IndexedVtable d.vtable) (hm : ∀ m ∈ d.methods, m.slot = none ∨ m ∈ d.vtable)
    (base : d.lineage = [] ∨ ∃ b, d.lineage = U.chain b ∧ U.Knows b ∧ RefinesVtable d.vtable (U.decl b).vtable)
    (bases : d.vtable = [] ∨ d.HasValueBases) : d.Laid U :=
  laid_of_tables U (by simp [hp]) hc hv hm base (.inl ht) bases

theorem laid_below_object (hp : d.properties = []) (hc : d.constructors = []) (hm : d.methods = [])
    (hl : d.lineage = [.object]) (hv : d.vtable = object.vtable) (ht : d.tables = []) (hb : d.HasValueBases) :
    d.Laid U :=
  laid_of_methods U hp hc ht (hv ▸ (slots_of_builtin (.inl rfl)).1) (by simp [hm])
    (.inr ⟨.object, hl, trivial, by rw [hv]; exact .refl _⟩) (.inr hb)

theorem laid_below_valueType (hp : d.properties = []) (hc : d.constructors = []) {m : Method} (hm : d.methods = [m])
    (hl : d.lineage = U.chain .valueType) (hv : d.vtable = valueType.vtable) (ht : d.tables = [(.comparable, [m])])
    (hsame : m.SameSignature compareTo) (hslot : m.slot = none) (hb : d.HasValueBases) : d.Laid U :=
  laid_of_tables U (by simp [hp]) hc (hv ▸ (slots_of_builtin (.inr (.inl rfl))).1) (by simp [hm, hslot])
    (.inr ⟨.valueType, hl, trivial, by rw [hv]; exact .refl _⟩) (.inr ⟨m, ht, hsame, hslot⟩) (.inr hb)

theorem scalar_laid (p : Primitive) : (scalar p).Laid U :=
  laid_below_valueType U rfl rfl rfl rfl rfl rfl ⟨rfl, rfl, rfl, rfl⟩ rfl ⟨by simp [scalar], by simp [scalar]⟩

theorem laid_of_builtin {t : Ty} (h : ∀ i, t ≠ .declared i) : (U.decl t).Laid U := by
  cases t with
  | object =>
    exact laid_of_methods U rfl rfl rfl (slots_of_builtin (.inl rfl)).1 (fun m h => .inr h) (.inl rfl) (.inr trivial)
  | valueType =>
    exact laid_of_methods U rfl rfl rfl (slots_of_builtin (.inr (.inl rfl))).1 (fun m h => .inr h)
      (.inr ⟨.object, rfl, trivial, (slots_of_builtin (.inr (.inl rfl))).2⟩) (.inr trivial)
  | enumBase => exact laid_below_valueType U rfl rfl rfl rfl rfl rfl ⟨rfl, rfl, rfl, rfl⟩ rfl trivial
  | null | array e => exact laid_below_object U rfl rfl rfl rfl rfl rfl trivial
  | bool | int32 | int64 | float64 => exact scalar_laid U _
  | string =>
    refine laid_of_tables U ?_ rfl (slots_of_builtin (.inr (.inr rfl))).1 ?_
      (.inr ⟨.object, rfl, trivial, (slots_of_builtin (.inr (.inr rfl))).2⟩)
      (.inr ⟨stringCompareTo, rfl, ⟨rfl, rfl, rfl, rfl⟩, rfl⟩) (.inr trivial)
    · simp [decl, string, stringLength]
    · simp [decl, string, stringLength, stringToUpper, stringContains, stringCompareTo]
  | comparable =>
    exact laid_of_methods U rfl rfl rfl indexed_nil (by simp [decl, comparable, compareTo]) (.inl rfl) (.inl rfl)
  | disposable =>
    exact laid_of_methods U rfl rfl rfl indexed_nil (by simp [decl, disposable, dispose]) (.inl rfl) (.inl rfl)
  | declared i => exact absurd rfl (h i)

end Builtin

/-! ## Carrying out a description

The steps of a description keep a draft in shape: accessors have no slot, other methods wait for
theirs. Laying out the tables of such a draft gives a declaration that keeps its promise. -/

/-- A new draft is empty and stands below known bases. -/
inductive Draft.Starts (U : Universe) (self : Ty) (name : String) : Draft → Prop
  | struct : Starts U self name
    { self := self, decl := { name := name, form := .struct, lineage := [.valueType, .object] } }
  | interface : Starts U self name { self := self, decl := { name := name, form := .interface } }
  | classType {b : Ty} : U.Knows b → U.storage b = .reference → (U.decl b).declaredSealed = false →
    Starts U self name { self := self, decl := { name := name, form := .classType, lineage := U.chain b } }

theorem Draft.starts {U : Universe} {self : Ty} {name : String} {kind : DraftKind} {d : Draft}
    (h : Draft.start U self name kind = .ok d) : d.Starts U self name := by
  cases kind with
  | struct => cases h; exact .struct
  | interface => cases h; exact .interface
  | classType base =>
    simp only [Draft.start] at h
    split at h
    · cases h
    · rename_i hb
      cases h
      simp only [Bool.or_eq_true, decide_eq_true_eq, not_or, Bool.not_eq_true, ne_eq, not_not] at hb
      exact .classType (knows_of_storage (by rw [isValue, hb.1]; rfl)) hb.1 hb.2

/-- What holds of a draft between the steps of its description. -/
structure Draft.Proper (U : Universe) (d : Draft) : Prop extends d.decl.Accessible where
  accessors : ∀ m ∈ d.decl.methods, m.slot = none
  pending : ∀ p ∈ d.pending, Waits p
  interfaces : ∀ i ∈ d.decl.interfaces, U.isInterface i = true
  base : d.decl.lineage = [] ∨ ∃ b, d.decl.lineage = U.chain b ∧ U.Knows b
  bases : d.decl.HasValueBases

namespace Draft.Proper

variable {U : Universe} {d d' : Draft} {self : Ty} {decl : TypeDecl} {name : String}
  {v candidates : List Method}

theorem ofEmpty (hp : decl.properties = []) (hc : decl.constructors = []) (hm : decl.methods = [])
    (hi : decl.interfaces = []) (base : decl.lineage = [] ∨ ∃ b, decl.lineage = U.chain b ∧ U.Knows b)
    (bases : decl.HasValueBases) : Draft.Proper U { self := self, decl := decl } where
  getter := by simp [hp]
  setter := by simp [hp]
  constructor := by simp [hc]
  accessors := by simp [hm]
  pending := by simp
  interfaces := by simp [hi]
  base := base
  bases := bases

theorem start {kind : DraftKind} (h : Draft.start U self name kind = .ok d) : d.Proper U := by
  cases Draft.starts h with
  | struct => exact ofEmpty rfl rfl rfl rfl (.inr ⟨.valueType, rfl, trivial⟩) ⟨by simp, by simp⟩
  | interface => exact ofEmpty rfl rfl rfl rfl (.inl rfl) trivial
  | classType hk => exact ofEmpty rfl rfl rfl rfl (.inr ⟨_, rfl, hk⟩) trivial

theorem adds (h : d.Adds U d') (hd : d.Proper U) : d'.Proper U := by
  cases h with
  | close | field f => exact { hd with }
  | property p _ hp =>
    exact { hd with
      getter := forall_mem_concat hd.getter hp.getter
      setter := forall_mem_concat hd.setter hp.setter
      accessors := p.forall_mem_accessors hd.accessors hp.getter.2.2.2 fun m hm => (hp.setter m hm).2.2.2 }
  | method k m _ _ hm => exact { hd with pending := forall_mem_concat hd.pending hm }
  | constructor c _ _ hr hs => exact { hd with constructor := forall_mem_concat hd.constructor ⟨hr, hs⟩ }
  | interface i hi => exact { hd with interfaces := forall_mem_concat hd.interfaces hi }

theorem knows_interface (hd : d.Proper U) {i : Ty} (hi : i ∈ d.decl.interfaces) : U.Knows i := by
  have hstorage := hd.interfaces i hi
  simp only [isInterface, decide_eq_true_eq] at hstorage
  exact knows_of_storage (by rw [isValue, hstorage]; rfl)

/-- What an interface table is filled with has the signature of the interface method and fits the
vtable, if all candidates do. -/
theorem implementation_fits {im found : Method} (hv : IndexedVtable v) (hc : ∀ m ∈ candidates, FitsVtable v m)
    (h : Draft.implementation? v candidates im = some found) :
    found.name = im.name ∧ found.params = im.params ∧ found.result = im.result ∧
      found.isStatic = false ∧ FitsVtable v found := by
  obtain ⟨m, hm, rfl⟩ := map_eq_some_iff.1 h
  have hfit := hc m (mem_of_find?_eq_some hm)
  have hsame := hfit.inSlot
  have hp := find?_some hm
  simp only [Bool.and_eq_true, Bool.not_eq_true', decide_eq_true_eq] at hp
  obtain ⟨⟨⟨hstatic, hname⟩, hparams⟩, hresult⟩ := hp
  exact ⟨hsame.name.trans hname, hsame.params.trans hparams, hsame.result.trans hresult,
    hsame.isStatic.trans hstatic, hfit.fits_inSlot hv⟩

theorem tableFor_fits {i : Ty} {e : Ty × List Method} (hv : IndexedVtable v)
    (hc : ∀ m ∈ candidates, FitsVtable v m) (h : Draft.tableFor U v candidates i = .ok e) :
    e.1 = i ∧ ∀ (k : Nat) (im found : Method), (U.decl i).methods[k]? = some im →
      e.2[k]? = some found → found.name = im.name ∧ found.params = im.params ∧
        found.result = im.result ∧ found.isStatic = false ∧ FitsVtable v found := by
  obtain ⟨ms, hms, h⟩ := Except.bind_eq_ok.1 h
  cases h
  refine ⟨rfl, fun k im found him hfound => ?_⟩
  have hf := Except.mapM_eq_ok hms
  have hk := (List.getElem?_eq_some_iff.1 him).1
  have hk' := (List.getElem?_eq_some_iff.1 hfound).1
  have hat := (List.forall₂_iff_get.1 hf).2 k hk hk'
  rw [List.getElem?_eq_getElem hk] at him
  rw [List.getElem?_eq_getElem hk'] at hfound
  cases him
  cases hfound
  simp only [List.get_eq_getElem] at hat
  split at hat
  · rename_i m hm
    cases hat
    exact implementation_fits hv hc hm
  · cases hat

/-- The vtable that a draft starts from is the one of the nearest base. -/
theorem inherited (hU : U.AllLaid) :
    IndexedVtable ((d.decl.lineage.head?.map fun b => (U.decl b).vtable).getD []) := by
  cases d.decl.lineage.head? with
  | none => exact indexed_nil
  | some b => exact (hU b).indexed

/-- Laying out the tables of a draft in shape gives a declaration that keeps its promise. -/
theorem finish (hU : U.AllLaid) (hd : d.Proper U) (h : d.finish U = .ok decl) : decl.Laid U := by
  obtain ⟨⟨vtable, placed⟩, hplace, h⟩ := Except.bind_eq_ok.1 h
  obtain ⟨tables, htables, h⟩ := Except.bind_eq_ok.1 h
  cases h
  obtain ⟨hrefines, hindexed, hplaced⟩ := Draft.placeAll_refines hd.pending (inherited hU) hplace
  have hmethods : ∀ m ∈ d.decl.methods ++ placed, FitsVtable vtable m := by
    intro m hm
    rcases mem_append.1 hm with hm | hm
    · exact fits_of_no_slot _ (hd.accessors m hm)
    · exact hplaced m hm
  have hbase : d.decl.lineage = [] ∨
      ∃ b, d.decl.lineage = U.chain b ∧ U.Knows b ∧ RefinesVtable vtable (U.decl b).vtable := by
    rcases hd.base with hb | ⟨b, hb, hk⟩
    · exact .inl hb
    · refine .inr ⟨b, hb, hk, ?_⟩
      simpa [hb, chain] using hrefines
  have hcandidates : ∀ m ∈ (d.decl.methods ++ placed) ++
      d.decl.lineage.flatMap fun c => (U.decl c).methods, FitsVtable vtable m := by
    intro m hm
    rcases mem_append.1 hm with hm | hm
    · exact hmethods m hm
    · obtain ⟨c, hc, hm⟩ := mem_flatMap.1 hm
      rcases hbase with hb | ⟨b, hb, -, hr⟩
      · rw [hb] at hc
        cases hc
      · rw [hb] at hc
        exact (((hU c).methods m hm).mono (hU.refines hc)).mono hr
  refine
    { hd with
      indexed := hindexed
      methods := hmethods
      base := hbase
      tables := fun e he => ?_
      bases := .inr hd.bases }
  obtain ⟨i, hi, hie⟩ := exists_mem_of_forall₂ (Except.mapM_eq_ok htables) he
  obtain ⟨rfl, htable⟩ := tableFor_fits hindexed hcandidates hie
  exact ⟨hd.knows_interface hi, htable⟩

end Draft.Proper

/-! ## Declared universes -/

namespace Universe

theorem Declared.allLaid {U : Universe} (h : U.Declared) : U.AllLaid := by
  have hknown : ∀ t, U.Knows t → (U.decl t).Laid U := by
    refine h.every (P := fun U _ d => d.Laid U) (fun hext hd => hd.mono hext) laid_of_builtin
      fun {U d} _ ih hd => ?_
    cases hd with
    | described hstart hsteps hfinish =>
      exact (Draft.adds_keep Draft.Proper.adds hsteps (.start hstart)).finish (allLaid_of_knows ih) hfinish
    | enumeration name p names _ =>
      exact laid_of_methods U rfl rfl rfl (slots_of_builtin (.inr (.inl rfl))).1 (fun _ h => by cases h)
        (.inr ⟨.enumBase, rfl, trivial, .refl _⟩) (.inr ⟨by simp, by simp, by simp⟩)
    | delegate => exact laid_below_object U rfl rfl rfl rfl rfl rfl trivial
  exact allLaid_of_knows hknown

variable {U : Universe} {t : Ty} {p : Property} {m : Method}

theorem Declared.getter_shape (hU : U.Declared) (h : p ∈ (U.decl t).properties) :
    p.getter.params = [] ∧ p.getter.result = p.type ∧ p.getter.isStatic = false ∧ p.getter.slot = none :=
  (hU.allLaid t).getter p h

theorem Declared.setter_shape (hU : U.Declared) (h : p ∈ (U.decl t).properties) (hm : p.setter = some m) :
    m.params = [p.type] ∧ m.result = none ∧ m.isStatic = false ∧ m.slot = none :=
  (hU.allLaid t).setter p h m hm

theorem Declared.constructor_shape (hU : U.Declared) {c : Method} (h : c ∈ (U.decl t).constructors) :
    c.result = none ∧ c.isStatic = false :=
  (hU.allLaid t).constructor c h

/-- A method that a value of type `t` has, and that no interface declares, fits the vtable of `t`. -/
theorem Declared.fits_of_hasMethodsOf (hU : U.Declared) (hv : U.isValue t = true)
    (hm : m ∈ (U.decl m.owner).methods) (ho : Build.hasMethodsOf U t m.owner = true)
    (hi : U.isInterface m.owner = false) : ((inSlot? (U.decl t).vtable m).getD m).SameSignature m := by
  have hfit : m.owner ∈ U.chain t → ((inSlot? (U.decl t).vtable m).getD m).SameSignature m :=
    fun hc => (((hU.allLaid m.owner).methods m hm).mono (hU.allLaid.refines hc)).inSlot
  simp only [Build.hasMethodsOf, Bool.or_eq_true, decide_eq_true_eq] at ho
  rcases ho with ((ho | ho) | ho) | ho
  · exact hfit (by simp [chain, ho])
  · -- a value is assignable to its own type only
    simp only [assignable, hv, if_true] at ho
    split at ho
    · rename_i heq
      exact hfit (by simp [chain, heq])
    · cases ho
  · exact hfit (mem_cons_of_mem _ (by simpa [isSubclass] using ho))
  · -- the bases that values box to are bases, unless the type has no declaration
    rcases (hU.allLaid t).bases with hb | hb
    · simp [inSlot?, hb, Method.SameSignature.refl]
    · refine hfit (mem_cons_of_mem _ ?_)
      simp only [boxesTo, hv, Bool.true_and] at ho
      split at ho
      · rename_i hbase
        have hbases : .valueType ∈ (U.decl t).lineage ∧ .object ∈ (U.decl t).lineage := by
          unfold TypeDecl.HasValueBases at hb
          unfold isValue storage at hv
          revert hb hv
          cases (U.decl t).form <;> simp_all [Storage.isValue]
        simp only [Bool.or_eq_true, decide_eq_true_eq] at hbase
        rcases hbase with hbase | hbase
        · rw [hbase]; exact hbases.2
        · rw [hbase]; exact hbases.1
      · split at ho
        · rename_i henum
          rw [henum]
          unfold TypeDecl.HasValueBases at hb
          unfold isEnum at ho
          revert hb ho
          cases (U.decl t).form <;> simp_all
        · simp [hi] at ho

theorem mem_tables {i : Ty} {table : List Method} (h : U.table? t i = some table) :
    ∃ c ∈ U.chain t, (i, table) ∈ (U.decl c).tables := by
  obtain ⟨c, hc, hlookup⟩ := exists_of_findSome?_eq_some h
  obtain ⟨_, _, heq, -⟩ := lookup_eq_some_iff.1 hlookup
  exact ⟨c, hc, by simp [heq]⟩

/-- **Calls on values keep their signature.** What a value type has for one of its methods takes and
gives what the method does, and takes a receiver. -/
theorem Declared.resolve_signature (hU : U.Declared) {r : Method} (hv : U.isValue t = true)
    (hstatic : m.isStatic = false)
    (hm : m.slot = none ∨ (m ∈ (U.decl m.owner).methods ∧ Build.hasMethodsOf U t m.owner = true))
    (h : U.resolve t m = some r) : r.SameSignature m := by
  have hti : U.isInterface t = false := by
    unfold isValue at hv
    unfold isInterface
    cases hs : U.storage t <;> simp_all [Storage.isValue]
  unfold resolve at h
  by_cases hi : U.isInterface m.owner = true
  · -- the table entry at the place of the method in its interface
    simp only [hi, hti, Bool.not_false, Bool.and_true, if_true] at h
    split at h
    · rename_i table k htable hidx
      obtain ⟨found, hfound, rfl⟩ := map_eq_some_iff.1 h
      obtain ⟨c, hc, he⟩ := mem_tables htable
      have him : (U.decl m.owner).methods[k]? = some m := by
        obtain ⟨hk, hkm, -⟩ := findIdx?_eq_some_iff_getElem.1 hidx
        rw [getElem?_eq_getElem hk]
        simpa using hkm
      obtain ⟨hn, hp, hr, hs, hfit⟩ := ((hU.allLaid c).tables _ he).2 k m found him hfound
      have hsame := (hfit.mono (hU.allLaid.refines hc)).inSlot
      exact hsame.trans ⟨hn, hp, hr, hs.trans hstatic.symm⟩
    · cases h
  · simp only [hi, hti, Bool.not_false, Bool.and_true, Bool.false_eq_true, if_false, some.injEq] at h
    subst h
    rcases hm with hm | ⟨hm, ho⟩
    · exact (fits_of_no_slot _ hm).inSlot
    · exact hU.fits_of_hasMethodsOf hv hm ho (by simpa using hi)

end Universe

end TreeMachine
