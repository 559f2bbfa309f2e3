import TreeMachine.Proofs.Outcome
import TreeMachine.Types.Draft
import TreeMachine.Value.Display
import TreeMachine.Value.Equality

/-!
# Names of enums

A declaration gives each name a number of 64 bits and refuses two names for one number (`mem_iff_lookup`), but the
values of an enum wrap to the width of the underlying type. Names and values correspond exactly where no number is
changed by that (`enum_names_iff`): a number that wraps is looked up under another number than it was declared with.
-/

open List

namespace TreeMachine

open Universe

namespace Universe

theorem mem_of_lastEntries {values : List (String × Int64)} {e : String × Int64} (h : e ∈ lastEntries values) :
    e ∈ values := by
  induction values with
  | nil => exact h
  | cons x xs ih =>
    rw [lastEntries] at h
    split at h
    · exact mem_cons_of_mem _ (ih h)
    · exact (mem_cons.1 h).elim (fun h => h ▸ mem_cons_self) fun h => mem_cons_of_mem _ (ih h)

theorem eq_of_lastEntries {values : List (String × Int64)} {n : String} {v w : Int64} (hv : (n, v) ∈ lastEntries values)
    (hw : (n, w) ∈ lastEntries values) : v = w := by
  induction values with
  | nil => cases hv
  | cons x xs ih =>
    rw [lastEntries] at hv hw
    split at hv
    · rename_i hlater
      rw [if_pos hlater] at hw
      exact ih hv hw
    · rename_i hlater
      -- no later entry has the name of the first one
      have hfirst : ∀ {u : Int64}, (n, u) ∈ lastEntries xs → n ≠ x.1 := fun hu hn =>
        hlater (any_eq_true.2 ⟨_, mem_of_lastEntries hu, by simpa using hn⟩)
      rw [if_neg hlater] at hw
      rcases mem_cons.1 hv with rfl | hv <;> rcases mem_cons.1 hw with hw | hw
      · exact (congrArg Prod.snd hw).symm
      · exact absurd rfl (hfirst hw)
      · exact absurd (congrArg Prod.fst hw) (hfirst hv)
      · exact ih hv hw

theorem mem_iff_lookup {es : List (String × Int64)} {names : List (Int64 × String)} (h : enumNames es = .ok names)
    {n : String} {v : Int64} : (n, v) ∈ es ↔ names.lookup v = some n := by
  induction es generalizing names with
  | nil =>
    cases h
    simp
  | cons e es ih =>
    obtain ⟨names', hnames, h⟩ := Except.bind_eq_ok.1 h
    split at h
    · cases h
    · rename_i hnone
      cases h
      rw [mem_cons, ih hnames, lookup_cons]
      by_cases hv : v = e.2
      · subst hv
        rw [hnone]
        simp [Prod.ext_iff, eq_comm]
      · have hne : (n, v) ≠ e := fun he => hv (congrArg Prod.snd he)
        rw [beq_eq_false_iff_ne.2 hv]
        simp [hne]

end Universe

variable {U V : Universe} {t : Ty} {name : String} {underlying : Option Ty} {values : List (String × Int64)}

theorem form_of_declareEnum (h : U.declareEnum name underlying values = .ok (t, V)) :
    ∃ p names, enumNames (lastEntries values) = .ok names ∧ (V.decl t).form = .enumeration p names := by
  have hover : ∀ p, declareEnum.declareOver U name values p = .ok (t, V) → ∃ p names,
      enumNames (lastEntries values) = .ok names ∧ (V.decl t).form = .enumeration p names := by
    intro p h
    obtain ⟨names, hnames, h⟩ := Except.bind_eq_ok.1 h
    cases h
    refine ⟨p, names, hnames, ?_⟩
    simp [decl, Universe.next]
  unfold declareEnum at h
  split at h
  · exact hover _ h
  · exact hover _ h
  · cases h

theorem asInt_integral (V : Universe) (t : Ty) (v : Int64) :
    (Value.integral V t v).asInt V = wrapTo (V.primitive? t) v := by
  show wrapTo (V.primitive? t) (wrapTo (V.primitive? t) v).toUInt64.toInt64 = _
  rw [Int64.toInt64_toUInt64, wrapTo_wrapTo]

/-- **Names and values of an enum correspond one to one** exactly if every number fits the underlying type. -/
theorem enum_names_iff (h : U.declareEnum name underlying values = .ok (t, V)) (hnamed : ∀ e ∈ values, e.1 ≠ "")
    (s : Store) :
    (∀ e ∈ lastEntries values, s.text V (.integral V t e.2) = e.1 ∧
      V.hasEnumValue t ((Value.integral V t e.2).asInt V) = true ∧
      ∀ e' ∈ lastEntries values, e'.1 ≠ e.1 →
        s.equal (.integral V t e.2) (.integral V t e'.2) = false) ↔
    ∀ e ∈ lastEntries values, wrapTo (V.primitive? t) e.2 = e.2 := by
  obtain ⟨p, names, hnames, hform⟩ := form_of_declareEnum h
  have hlookup : ∀ {n : String} {v : Int64}, (n, v) ∈ lastEntries values ↔ names.lookup v = some n :=
    mem_iff_lookup hnames
  have htext : ∀ v, s.text V (.integral V t v) = Store.integerText V (.integral V t v) := fun _ => rfl
  -- a number that has a name is shown by it
  have hname : ∀ {n : String} {v : Int64}, names.lookup (wrapTo (V.primitive? t) v) = some n →
      s.text V (.integral V t v) = n := by
    intro n v hn
    have hne : n ≠ "" := hnamed _ (mem_of_lastEntries (hlookup.2 hn))
    rw [htext, Store.integerText, asInt_integral]
    simp [Value.integral, enumName, hform, hn, hne]
  constructor
  · rintro hall ⟨n, v⟩ he
    obtain ⟨hshown, hhas, -⟩ := hall _ he
    rw [asInt_integral, hasEnumValue, hform] at hhas
    obtain ⟨n', hn'⟩ := Option.isSome_iff_exists.1 hhas
    obtain rfl : n' = n := (hname hn').symm.trans hshown
    exact eq_of_lastEntries (hlookup.2 hn') he
  · rintro hfits ⟨n, v⟩ he
    have hn : names.lookup (wrapTo (V.primitive? t) v) = some n := (hfits _ he).symm ▸ hlookup.1 he
    refine ⟨hname hn, ?_, ?_⟩
    · rw [asInt_integral, hasEnumValue, hform]
      exact Option.isSome_iff_exists.2 ⟨n, hn⟩
    · rintro ⟨n', v'⟩ he' hne
      have hv : v ≠ v' := by
        rintro rfl
        exact hne (Option.some.inj ((hlookup.1 he').symm.trans (hlookup.1 he)))
      have heq : s.equal (.integral V t v) (.integral V t v') =
          (wrapTo (V.primitive? t) v == wrapTo (V.primitive? t) v') := by
        show (decide (some t = some t) && _) = _
        rw [decide_eq_true rfl, Bool.true_and]
      rw [heq, hfits _ he, hfits _ he']
      simpa using hv

/-- Two colours, one of them a negative number. -/
theorem enum_names_colours : ∃ t V,
    declareEnum {} "Colour" (some .int32) [("Red", 1), ("Blue", -2)] = .ok (t, V) ∧
      ({} : Store).text V (.integral V t (-2)) = "Blue" := by
  have h : declareEnum {} "Colour" (some .int32) [("Red", 1), ("Blue", -2)] =
    .ok (.declared 0, _) := rfl
  exact ⟨_, _, h, (((enum_names_iff h (by decide) {}).2 (by decide)) ("Blue", -2) (by decide)).1⟩

/-- A number beyond 32 bits is accepted for a 32-bit enum, and its value has the name of another number. -/
theorem enum_name_wraps : ∃ t V,
    declareEnum {} "E" (some .int32) [("A", 1), ("B", 4294967297)] = .ok (t, V) ∧
      ({} : Store).text V (.integral V t 4294967297) = "A" ∧
      ({} : Store).equal (.integral V t 1) (.integral V t 4294967297) = true :=
  ⟨_, _, rfl, by decide +kernel, by decide +kernel⟩

end TreeMachine
