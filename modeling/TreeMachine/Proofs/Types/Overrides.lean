import TreeMachine.Proofs.Types.Assignability

/-!
# The vtable holds the nearest declarations

A type takes over the vtable of its base, puts the methods that it declares as virtual behind it and the ones that it
overrides in their places. Methods of one type never meet in a slot, because two methods of a description never
share their name and their number of parameters. So the entry of a slot is the method that the nearest type on the
chain puts there:

* **`Draft.placeAll_slots`**: placing methods fills the slots that they get and leaves the others as they are.
* **`Universe.Declared.vtable_eq_nearest`**: a vtable is what a walk along the chain finds.
-/

open List

namespace TreeMachine

open Universe

/-! ## Methods in their slots -/

/-- The methods differ in their names or in their numbers of parameters. -/
def ToldApart (p q : Dispatch × Method) : Prop := p.2.name = q.2.name → p.2.params.length ≠ q.2.params.length

variable {ps : List (Dispatch × Method)}

theorem Draft.placeAll_slots {v w ms : List Method} (hps : ∀ p ∈ ps, Waits p) (hapart : ps.Pairwise ToldApart)
    (hv : IndexedVtable v) (h : Draft.placeAll v ps = .ok (w, ms)) :
    (∀ m ∈ ms, ∀ k, m.slot = some k → w[k]? = some m) ∧ ∀ k, (∀ m ∈ ms, m.slot ≠ some k) → w[k]? = v[k]? := by
  induction ps generalizing v ms with
  | nil =>
    cases h
    exact ⟨fun _ hm => (by cases hm), fun _ _ => rfl⟩
  | cons p ps ih =>
    obtain ⟨u, m, ms', hp, hrest, rfl⟩ := Draft.placeAll_cons h
    obtain ⟨hpfirst, hpapart⟩ := pairwise_cons.1 hapart
    have hwaits : ∀ q ∈ ps, Waits q := fun q hq => hps q (mem_cons_of_mem _ hq)
    have hfills := Draft.fills_of_place (hps p mem_cons_self) hv hp
    obtain ⟨-, hu, -⟩ := hfills.refines hv
    obtain ⟨hwu, -, -⟩ := Draft.placeAll_refines hwaits hu hrest
    obtain ⟨hin, hout⟩ := ih hwaits hpapart hu hrest
    -- a later method of the same slot would have the signature of the first one
    have hfree : ∀ k, m.slot = some k → ∀ n ∈ ms', n.slot ≠ some k := by
      intro k hk n hn hnk
      obtain ⟨o, ho, hsame⟩ := hwu k m (hfills.entry k hk)
      obtain rfl : o = n := Option.some.inj (ho.symm.trans (hin n hn k hnk))
      obtain ⟨q, hq, hqn⟩ := exists_mem_of_forall₂ (Draft.placed_of_placeAll hrest).1 hn
      have hpm := (Draft.placed_of_place hp).1
      refine hpfirst q hq ?_ ?_
      · rw [← hpm.name, ← hqn.name, hsame.name]
      · rw [← hpm.params, ← hqn.params, hsame.params]
    refine ⟨forall_mem_cons.2 ⟨fun k hk => ?_, hin⟩, fun k hk => ?_⟩
    · rw [hout k (hfree k hk), hfills.entry k hk]
    · obtain ⟨hkm, hkms⟩ := forall_mem_cons.1 hk
      rw [hout k hkms, hfills.others k hkm]

/-! ## Declarations and their slots -/

def TypeDecl.Leaves (d : TypeDecl) (k : Nat) : Prop := ∀ m ∈ d.methods, m.slot ≠ some k

/-- The virtual methods of a declaration are in its vtable, among the entries of the nearest base. -/
structure TypeDecl.Slotted (U : Universe) (d : TypeDecl) : Prop where
  own : ∀ m ∈ d.methods, ∀ k, m.slot = some k → d.vtable[k]? = some m
  isVirtual : ∀ m ∈ d.methods, m.isVirtual = m.slot.isSome
  base : (d.lineage = [] ∧ ∀ k, d.Leaves k → d.vtable[k]? = none) ∨
    ∃ b, d.lineage = U.chain b ∧ U.Knows b ∧ ∀ k, d.Leaves k → d.vtable[k]? = (U.decl b).vtable[k]?

theorem TypeDecl.Slotted.mono {U U' : Universe} {d : TypeDecl} (hU : U'.Extends U) (h : d.Slotted U) :
    d.Slotted U' := by
  refine { h with base := ?_ }
  rcases h.base with hb | ⟨b, hb, hk, hkeep⟩
  · exact .inl hb
  · exact .inr ⟨b, by rw [hb, chain, chain, hU.decl b hk], hU.knows b hk, by rwa [hU.decl b hk]⟩

namespace Builtin

variable (U : Universe) {t : Ty} {d : TypeDecl}

theorem slotted_of_plain (hm : ∀ m ∈ d.methods, m.slot = none ∧ m.isVirtual = false)
    (base : (d.lineage = [] ∧ ∀ k, d.Leaves k → d.vtable[k]? = none) ∨
      ∃ b, d.lineage = U.chain b ∧ U.Knows b ∧ ∀ k, d.Leaves k → d.vtable[k]? = (U.decl b).vtable[k]?) :
    d.Slotted U where
  own := fun m h k hk => by rw [(hm m h).1] at hk; cases hk
  isVirtual := fun m h => by rw [(hm m h).1, (hm m h).2]; rfl
  base := base

theorem slotted_of_inherited {b : Ty} (hm : ∀ m ∈ d.methods, m.slot = none ∧ m.isVirtual = false)
    (hl : d.lineage = U.chain b) (hb : U.Knows b) (hv : d.vtable = (U.decl b).vtable) : d.Slotted U :=
  slotted_of_plain U hm (.inr ⟨b, hl, hb, fun k _ => by rw [hv]⟩)

theorem slotted_of_builtin (h : ∀ i, t ≠ .declared i) : (U.decl t).Slotted U := by
  have hcompare : ∀ o, ∀ m ∈ [scalarCompareTo o], m.slot = none ∧ m.isVirtual = false := by
    simp [scalarCompareTo, compareTo]
  have hscalar : ∀ p, (scalar p).Slotted U := fun p =>
    slotted_of_inherited U (b := .valueType) (hcompare _) rfl trivial rfl
  cases t with
  | object =>
    refine ⟨?_, ?_, .inl ⟨rfl, fun k hk => ?_⟩⟩
    case refine_3 =>
      rcases k with _ | _ | _ | k
      · exact absurd rfl (hk objectToString (by simp [decl, object]))
      · exact absurd rfl (hk objectEquals (by simp [decl, object]))
      · exact absurd rfl (hk objectHashCode (by simp [decl, object]))
      · rfl
    all_goals simp [decl, object, objectToString, objectEquals, objectHashCode]
  | valueType =>
    refine ⟨?_, ?_, .inr ⟨.object, rfl, trivial, fun k hk => ?_⟩⟩
    case refine_3 =>
      rcases k with _ | _ | _ | k
      · exact absurd rfl (hk valueToString (by simp [decl, valueType]))
      · exact absurd rfl (hk valueEquals (by simp [decl, valueType]))
      · exact absurd rfl (hk valueHashCode (by simp [decl, valueType]))
      · rfl
    all_goals simp [decl, valueType, valueToString, valueEquals, valueHashCode, objectToString, objectEquals,
        objectHashCode]
  | enumBase => exact slotted_of_inherited U (b := .valueType) (hcompare _) rfl trivial rfl
  | null | array e => exact slotted_of_inherited U (b := .object) (forall_mem_nil _) rfl trivial rfl
  | bool | int32 | int64 | float64 => exact hscalar _
  | string =>
    refine ⟨?_, ?_, .inr ⟨.object, rfl, trivial, fun k hk => ?_⟩⟩
    case refine_3 =>
      rcases k with _ | _ | _ | k
      · rfl
      · exact absurd rfl (hk stringEquals (by simp [decl, string]))
      · exact absurd rfl (hk stringHashCode (by simp [decl, string]))
      · rfl
    all_goals simp [decl, string, stringLength, stringEquals, stringHashCode, stringToUpper, stringContains,
        stringCompareTo, objectEquals, objectHashCode]
  | comparable => exact slotted_of_plain U (by simp [decl, comparable, compareTo]) (.inl ⟨rfl, fun _ _ => rfl⟩)
  | disposable => exact slotted_of_plain U (by simp [decl, disposable, dispose]) (.inl ⟨rfl, fun _ _ => rfl⟩)
  | declared i => exact absurd rfl (h i)

end Builtin

/-- The methods that wait can be told apart, and accessors are not virtual. -/
structure Draft.Distinct (d : Draft) : Prop where
  pending : d.pending.Pairwise ToldApart
  accessors : ∀ m ∈ d.decl.methods, m.isVirtual = false

namespace Draft.Distinct

variable {U : Universe} {d d' : Draft} {self : Ty} {name : String} {kind : DraftKind} {decl : TypeDecl}

theorem start (h : Draft.start U self name kind = .ok d) : d.Distinct := by
  cases Draft.starts h <;> exact ⟨.nil, forall_mem_nil _⟩

theorem adds (h : d.Adds U d') (hd : d.Distinct) : d'.Distinct := by
  cases h with
  | property p _ hp =>
    exact { hd with accessors := p.forall_mem_accessors hd.accessors hp.isVirtual fun m hm => (hp.setterOwner m hm).2 }
  | method k m _ _ _ _ hfresh =>
    refine { hd with pending := pairwise_append.2 ⟨hd.pending, pairwise_singleton _ _, ?_⟩ }
    intro p hp q hq
    obtain rfl := mem_singleton.1 hq
    exact hfresh p hp
  | _ => exact { hd with }

theorem finish (hU : U.AllLaid) (hd : d.Distinct) (hproper : d.Proper U) (h : d.finish U = .ok decl) :
    decl.Slotted U := by
  obtain ⟨⟨vtable, placed⟩, hplace, h⟩ := Except.bind_eq_ok.1 h
  obtain ⟨tables, -, h⟩ := Except.bind_eq_ok.1 h
  cases h
  obtain ⟨hin, hout⟩ := Draft.placeAll_slots hproper.pending hd.pending (Proper.inherited hU) hplace
  have hkeep : ∀ k, (∀ m ∈ d.decl.methods ++ placed, m.slot ≠ some k) →
      vtable[k]? = ((d.decl.lineage.head?.map fun b => (U.decl b).vtable).getD [])[k]? := fun k hk =>
    hout k fun m hm => hk m (mem_append_right _ hm)
  refine ⟨forall_mem_append.2 ⟨fun m hm k hk => ?_, hin⟩, forall_mem_append.2 ⟨fun m hm => ?_, fun m hm => ?_⟩, ?_⟩
  · rw [hproper.accessors m hm] at hk
    cases hk
  · rw [hproper.accessors m hm, hd.accessors m hm]
    rfl
  · obtain ⟨p, hp, hpm⟩ := exists_mem_of_forall₂ (Draft.placed_of_placeAll hplace).1 hm
    have hwaits := hproper.pending p hp
    by_cases hplain : p.1 = .plain
    · rw [hpm.isVirtual, hpm.plain hplain, hwaits.plain hplain, hwaits.slot]
      rfl
    · rw [hpm.isVirtual, hwaits.isVirtual hplain, hpm.slot hplain]
  · rcases hproper.base with hb | ⟨b, hb, hk⟩
    · exact .inl ⟨hb, fun k hk => by rw [hkeep k hk, hb]; rfl⟩
    · exact .inr ⟨b, hb, hk, fun k hk => by rw [hkeep k hk, hb]; rfl⟩

end Draft.Distinct

namespace Universe

variable {U : Universe} {t : Ty} {m : Method} {k : Nat}

theorem Declared.owner_of_mem (hU : U.Declared) (hm : m ∈ (U.decl t).methods) : m.owner = t := by
  rcases hU.traced_or t with ⟨-, ht⟩ | ht
  · exact ht.owner m hm
  · rw [ht] at hm
    cases hm

theorem Declared.slotted (hU : U.Declared) (t : Ty) : (U.decl t).Slotted U := by
  by_cases hk : U.Knows t
  · refine hU.every (P := fun U _ d => d.Slotted U) TypeDecl.Slotted.mono Builtin.slotted_of_builtin
      (fun {U d} hU _ hd => ?_) t hk
    cases hd with
    | described hstart hsteps hfinish =>
      exact (Draft.adds_keep Draft.Distinct.adds hsteps (.start hstart)).finish hU.allLaid
        (Draft.adds_keep Draft.Proper.adds hsteps (.start hstart)) hfinish
    | enumeration =>
      exact Builtin.slotted_of_inherited U (b := .enumBase) (forall_mem_nil _) rfl trivial rfl
    | delegate => exact Builtin.slotted_of_inherited U (b := .object) (forall_mem_nil _) rfl trivial rfl
  · rw [decl_of_not_knows hk]
    exact ⟨forall_mem_nil _, forall_mem_nil _, .inl ⟨rfl, fun _ _ => rfl⟩⟩

/-- What the nearest type on the chain that has a method for the slot has there. -/
def nearest? (U : Universe) (t : Ty) (k : Nat) : Option Method :=
  (U.chain t).findSome? fun c => (U.decl c).methods.find? (·.slot = some k)

/-- A type has the nearest method for a slot itself, or leaves the slot to its bases. -/
theorem Declared.nearest?_cases (hU : U.Declared) (t : Ty) (k : Nat) :
    (∃ m, (U.decl t).vtable[k]? = some m ∧ U.nearest? t k = some m) ∨ ((U.decl t).Leaves k ∧ U.nearest? t k =
      (U.decl t).lineage.findSome? fun c => (U.decl c).methods.find? (·.slot = some k)) := by
  unfold nearest? chain
  rw [findSome?_cons]
  cases hfind : (U.decl t).methods.find? fun m => decide (m.slot = some k) with
  | some m =>
    have hslot : m.slot = some k := by simpa using find?_some hfind
    exact .inl ⟨m, (hU.slotted t).own m (mem_of_find?_eq_some hfind) k hslot, rfl⟩
  | none => exact .inr ⟨fun m hm hk => by simpa [hk] using find?_eq_none.1 hfind m hm, rfl⟩

theorem Declared.vtable_eq_nearest (hU : U.Declared) (t : Ty) (k : Nat) : (U.decl t).vtable[k]? = U.nearest? t k := by
  refine hU.allLaid.inductionOn (P := fun t => (U.decl t).vtable[k]? = U.nearest? t k) t (fun t ht => ?_)
    fun t b hb _ ih => ?_
  · rcases hU.nearest?_cases t k with ⟨m, hm, hnear⟩ | ⟨hleaves, hnear⟩
    · rw [hm, hnear]
    · rcases (hU.slotted t).base with ⟨-, hnone⟩ | ⟨b, hb, -⟩
      · rw [hnone k hleaves, hnear, ht]
        rfl
      · rw [ht] at hb
        cases hb
  · rcases hU.nearest?_cases t k with ⟨m, hm, hnear⟩ | ⟨hleaves, hnear⟩
    · rw [hm, hnear]
    · rcases (hU.slotted t).base with ⟨hnil, -⟩ | ⟨c, hc, -, hkeep⟩
      · rw [hb] at hnil
        cases hnil
      · obtain rfl : b = c := (cons.inj (hb.symm.trans hc)).1
        rw [hkeep k hleaves, ih, hnear, hb]
        rfl

/-- `m` is what the nearest type on the chain of `t` that declares a virtual method for slot `k`, or overrides one,
has there. That type has no other method for the slot. -/
def Overrides (U : Universe) (t : Ty) (k : Nat) (m : Method) : Prop :=
  ∃ below above, U.chain t = below ++ m.owner :: above ∧ m ∈ (U.decl m.owner).methods ∧ m.isVirtual = true ∧
    m.slot = some k ∧ (∀ n ∈ (U.decl m.owner).methods, n.slot = some k → n = m) ∧
    ∀ c ∈ below, ∀ n ∈ (U.decl c).methods, n.slot ≠ some k

theorem Declared.vtable_iff (hU : U.Declared) : (U.decl t).vtable[k]? = some m ↔ U.Overrides t k m := by
  rw [hU.vtable_eq_nearest, nearest?, findSome?_eq_some_iff]
  constructor
  · rintro ⟨below, c, above, hchain, hfind, hbelow⟩
    have hm := mem_of_find?_eq_some hfind
    have hslot : m.slot = some k := by simpa using find?_some hfind
    obtain rfl := hU.owner_of_mem hm
    refine ⟨below, above, hchain, hm, ?_, hslot, fun n hn hnk => ?_, fun c hc n hn hnk => ?_⟩
    · rw [(hU.slotted _).isVirtual m hm, hslot]
      rfl
    · exact Option.some.inj (((hU.slotted _).own n hn k hnk).symm.trans ((hU.slotted _).own m hm k hslot))
    · simpa [hnk] using find?_eq_none.1 (hbelow c hc) n hn
  · rintro ⟨below, above, hchain, hm, -, hslot, hunique, hbelow⟩
    refine ⟨below, m.owner, above, hchain, ?_, fun c hc => find?_eq_none.2 fun n hn => ?_⟩
    · have hfound : ((U.decl m.owner).methods.find? (·.slot = some k)).isSome = true :=
        find?_isSome.2 ⟨m, hm, decide_eq_true hslot⟩
      obtain ⟨n, hn⟩ := Option.isSome_iff_exists.1 hfound
      rw [hn, hunique n (mem_of_find?_eq_some hn) (by simpa using find?_some hn)]
    · simpa using hbelow c hc n hn

theorem Declared.resolve_of_virtual (hU : U.Declared) {c : Ty} (hc : c ∈ U.chain t) (hm : m ∈ (U.decl c).methods)
    (hvirtual : m.isVirtual = true) :
    ∃ i impl, m.slot = some i ∧ U.resolve t m = some impl ∧ (U.decl t).vtable[i]? = some impl := by
  have hsome := (hU.slotted c).isVirtual m hm
  rw [hvirtual] at hsome
  obtain ⟨i, hi⟩ := Option.isSome_iff_exists.1 hsome.symm
  have hown := (hU.slotted c).own m hm i hi
  obtain ⟨impl, himpl, -⟩ := hU.allLaid.refines hc i m hown
  have howner : U.isInterface m.owner = false := by
    by_contra hinterface
    rw [hU.owner_of_mem hm, Bool.not_eq_false] at hinterface
    rw [(hU.bare_of_interface hinterface).2.2] at hown
    cases hown
  refine ⟨i, impl, hi, ?_, himpl⟩
  simp [resolve, howner, inSlot?, hi, himpl]

/-- **Vtables are consistent along every chain.** Entries know their slots, the vtable of a base is refined entry by
entry, and the entry of a slot is the declaration of the nearest type that has one. It is what a call of a virtual
method runs. -/
theorem Declared.vtable_consistent (hU : U.Declared) (t : Ty) :
    (∀ (i : Nat) (m : Method), (U.decl t).vtable[i]? = some m → m.slot = some i) ∧
    (∀ b, U.isSubclass t b = true → (U.decl b).vtable.length ≤ (U.decl t).vtable.length ∧
      ∀ (i : Nat) (m : Method), (U.decl b).vtable[i]? = some m → ∃ n, (U.decl t).vtable[i]? = some n ∧ n.name = m.name ∧
        n.params = m.params ∧ n.result = m.result) ∧
    (∀ (i : Nat) (m : Method), (U.decl t).vtable[i]? = some m ↔ U.Overrides t i m) ∧
    ∀ c ∈ U.chain t, ∀ m ∈ (U.decl c).methods, m.isVirtual = true →
      ∃ i impl, m.slot = some i ∧ U.resolve t m = some impl ∧ U.Overrides t i impl := by
  refine ⟨fun i m hm => ((hU.allLaid t).indexed i m hm).1, fun b hb => ?_, fun i m => hU.vtable_iff,
    fun c hc m hm hvirtual => ?_⟩
  · have hrefines := hU.allLaid.refines (t := t) (c := b) (List.mem_cons_of_mem _ (by simpa [isSubclass] using hb))
    refine ⟨?_, fun i m hm => ?_⟩
    · by_contra hlt
      have hlast : (U.decl t).vtable.length < (U.decl b).vtable.length := Nat.lt_of_not_le hlt
      obtain ⟨n, hn, -⟩ := hrefines _ _ (List.getElem?_eq_getElem hlast)
      exact absurd (List.getElem?_eq_some_iff.1 hn).1 (Nat.lt_irrefl _)
    · obtain ⟨n, hn, hsame⟩ := hrefines i m hm
      exact ⟨n, hn, hsame.name, hsame.params, hsame.result⟩
  · obtain ⟨i, impl, hi, hresolve, himpl⟩ := hU.resolve_of_virtual hc hm hvirtual
    exact ⟨i, impl, hi, hresolve, hU.vtable_iff.1 himpl⟩

/-! ## Three generations -/

/-- Animals speak and move. A dog speaks in its own way and fetches, and a puppy fetches in its own way. -/
def kennel : Universe := declareAll {} [
  ⟨"Animal", .classType none,
    [.virtualMethod "Speak" [] (some .string) (some 0), .virtualMethod "Move" [some .int32] none (some 1)]⟩,
  ⟨"Dog", .classType (some (.declared 0)),
    [.virtualMethod "Fetch" [] none (some 2), .overrideMethod "Speak" [] (some 3)]⟩,
  ⟨"Puppy", .classType (some (.declared 1)), [.overrideMethod "Fetch" [] (some 4)]⟩]

def bark : Method where
  owner := .declared 1
  serial := 1
  name := "Speak"
  result := some .string
  isVirtual := true
  slot := some 3
  body := some (.host 3)

/-- A puppy says what a dog says, moves like an animal and fetches like a puppy. -/
theorem vtable_consistent_puppy :
    (kennel.decl (.declared 2)).vtable.map (·.owner) =
      [.object, .object, .object, .declared 1, .declared 0, .declared 2] ∧
    (kennel.decl (.declared 2)).vtable[3]? = some bark ∧ kennel.Overrides (.declared 2) 3 bark :=
  ⟨by decide +kernel, by decide +kernel,
    ((Declared.vtable_consistent (Declared.empty.declareAll _) (.declared 2)).2.2.1 3 bark).1 (by decide +kernel)⟩

end Universe

end TreeMachine
