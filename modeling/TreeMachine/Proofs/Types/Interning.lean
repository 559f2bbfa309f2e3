import TreeMachine.Proofs.Types.Assignability

/-!
# One delegate type for a signature

A universe answers a request for a delegate type with the type that it has for the *text* of the signature, if that
type is of the signature itself, and with a new type otherwise. Types of one name make signatures of one text, and then
the new type takes the place of the one before, which is never given out again. So whether two requests get one type
depends on the requests between them:

* **`Universe.Serves`** says what a history of requests is answered with.
* **`Universe.Entry`** says which type stands for a text, and is kept or overtaken by every request.
-/

namespace TreeMachine

inductive Request where
  | declare (spec : TypeSpec)
  | declareEnum (name : String) (underlying : Option Ty) (values : List (String × Int64))
  | array (elem : Ty)
  | delegate (params : List Ty) (result : Option Ty)

namespace Universe

variable {U V : Universe} {q : Request} {ps qs : List Ty} {r u : Option Ty} {text : String} {i j : Nat}

/-! ## Histories -/

/-- The type that answers a request, and the universe after it. A declaration that is refused changes nothing. -/
def answer (U : Universe) : Request → Option Ty × Universe
  | .declare spec =>
    match U.declare spec with
    | .ok (t, V) => (some t, V)
    | .error _ => (none, U)
  | .declareEnum name underlying values =>
    match U.declareEnum name underlying values with
    | .ok (t, V) => (some t, V)
    | .error _ => (none, U)
  | .array elem => (some (.array elem), U)
  | .delegate params result => ((U.delegate params result).1, (U.delegate params result).2)

/-- The universe has the type, and the element types if it is an array type. -/
def spans (U : Universe) : Ty → Bool
  | .array e => spans U e
  | .declared k => k < U.decls.size
  | _ => true

/-- A delegate type is asked for with types that are there. -/
def scopes (U : Universe) : Request → Bool
  | .delegate params result => params.all U.spans && result.all U.spans
  | _ => true

/-- Requests that are served one after the other, what they are answered with, and the universe after them. -/
inductive Serves : Universe → List Request → List (Option Ty) → Universe → Prop
  | nil (U : Universe) : Serves U [] [] U
  | cons {U V : Universe} {q : Request} {qs : List Request} {ts : List (Option Ty)} : U.scopes q = true →
    Serves (U.answer q).2 qs ts V → Serves U (q :: qs) ((U.answer q).1 :: ts) V

/-! ## Universes only grow -/

theorem Extends.refl (U : Universe) : U.Extends U := ⟨fun _ h => h, fun _ _ => rfl⟩

theorem Extends.trans {W : Universe} (h : V.Extends U) (h' : W.Extends V) : W.Extends U where
  knows t ht := h'.knows t (h.knows t ht)
  decl t ht := (h'.decl t (h.knows t ht)).trans (h.decl t ht)

theorem Extends.name (h : V.Extends U) {t : Ty} (ht : U.spans t = true) : V.name t = U.name t := by
  induction t with
  | array e ih => rw [Universe.name, Universe.name, ih ht]
  | declared k =>
    have hk : k < U.decls.size := of_decide_eq_true ht
    exact congrArg TypeDecl.name (h.decl (.declared k) hk)
  | _ => rfl

theorem Extends.signatureText (h : V.Extends U) (hq : U.scopes (.delegate ps r) = true) :
    V.signatureText ps r = U.signatureText ps r := by
  simp only [scopes, Bool.and_eq_true, List.all_eq_true] at hq
  have hparams : ps.map V.name = ps.map U.name := List.map_congr_left fun t ht => h.name (hq.1 t ht)
  cases r with
  | none => simp only [Universe.signatureText, hparams]
  | some t => simp only [Universe.signatureText, hparams, h.name hq.2]

theorem knows_of_signature {t : Ty} (h : U.signature? t = some (ps, r)) : U.Knows t := by
  by_contra hk
  rw [signature?, decl_of_not_knows hk] at h
  cases h

theorem Extends.signature (h : V.Extends U) {t : Ty} (ht : U.signature? t = some (ps, r)) :
    V.signature? t = some (ps, r) := by
  rw [signature?, h.decl t (knows_of_signature ht)]
  exact ht

/-! ## What one request does -/

def withDelegate (U : Universe) (ps : List Ty) (r : Option Ty) : Universe :=
  (delegate.fresh U ps r (U.signatureText ps r)).2

theorem withDelegate_extends (U : Universe) (ps : List Ty) (r : Option Ty) : (U.withDelegate ps r).Extends U :=
  extends_push _ _ _

theorem withDelegate_signature (U : Universe) (ps : List Ty) (r : Option Ty) :
    (U.withDelegate ps r).signature? U.next = some (ps, r) := by
  simp [withDelegate, delegate.fresh, signature?, next, decl]

/-- **A delegate type** is found under the text of the signature, or it is new. -/
theorem delegate_cases (U : Universe) (ps : List Ty) (r : Option Ty) :
    (∃ k, U.signatures.lookup (U.signatureText ps r) = some k ∧ U.signature? (.declared k) = some (ps, r) ∧
      U.delegate ps r = (.declared k, U)) ∨
    ((∀ k, U.signatures.lookup (U.signatureText ps r) = some k → U.signature? (.declared k) ≠ some (ps, r)) ∧
      U.delegate ps r = (U.next, U.withDelegate ps r)) := by
  unfold delegate
  dsimp only
  cases hk : U.signatures.lookup (U.signatureText ps r) with
  | none => exact .inr ⟨nofun, rfl⟩
  | some k =>
    dsimp only
    by_cases hsig : U.signature? (.declared k) = some (ps, r)
    · rw [if_pos hsig]
      exact .inl ⟨k, rfl, hsig, rfl⟩
    · rw [if_neg hsig]
      refine .inr ⟨fun k' hk' => ?_, rfl⟩
      cases hk'
      exact hsig

theorem declare_grows {spec : TypeSpec} {t : Ty} (h : U.declare spec = .ok (t, V)) :
    V.signatures = U.signatures ∧ V.Extends U := by
  obtain ⟨d, -, h⟩ := admits_of_declare h
  cases h
  exact ⟨rfl, extends_push _ _ _⟩

theorem declareEnum_grows {name : String} {underlying : Option Ty} {values : List (String × Int64)} {t : Ty}
    (h : U.declareEnum name underlying values = .ok (t, V)) : V.signatures = U.signatures ∧ V.Extends U := by
  obtain ⟨d, -, h⟩ := admits_of_declareEnum h
  cases h
  exact ⟨rfl, extends_push _ _ _⟩

theorem answer_of_ne (h : ∀ ps r, q ≠ .delegate ps r) :
    (U.answer q).2.signatures = U.signatures ∧ (U.answer q).2.Extends U := by
  cases q with
  | declare spec =>
    cases hd : U.declare spec with
    | error e => simp only [answer, hd, true_and, Extends.refl]
    | ok res =>
      simp only [answer, hd]
      exact declare_grows hd
  | declareEnum name underlying values =>
    cases hd : U.declareEnum name underlying values with
    | error e => simp only [answer, hd, true_and, Extends.refl]
    | ok res =>
      simp only [answer, hd]
      exact declareEnum_grows hd
  | array elem => exact ⟨rfl, .refl U⟩
  | delegate ps r => exact absurd rfl (h ps r)

theorem answer_extends (U : Universe) (q : Request) : (U.answer q).2.Extends U := by
  by_cases h : ∃ ps r, q = .delegate ps r
  · obtain ⟨ps, r, rfl⟩ := h
    rcases delegate_cases U ps r with ⟨k, -, -, heq⟩ | ⟨-, heq⟩
    · rw [answer, heq]
      exact .refl U
    · rw [answer, heq]
      exact U.withDelegate_extends ps r
  · exact (answer_of_ne fun ps r hq => h ⟨ps, r, hq⟩).2

theorem Serves.extends {reqs : List Request} {ts : List (Option Ty)} (h : U.Serves reqs ts V) : V.Extends U := by
  induction h with
  | nil U => exact .refl U
  | cons _ _ ih => exact (answer_extends _ _).trans ih

theorem signature_delegate (U : Universe) (ps : List Ty) (r : Option Ty) :
    (U.delegate ps r).2.signature? (U.delegate ps r).1 = some (ps, r) := by
  rcases delegate_cases U ps r with ⟨k, -, hsig, heq⟩ | ⟨-, heq⟩
  · rw [heq]
    exact hsig
  · rw [heq]
    exact U.withDelegate_signature ps r

/-! ## Which type stands for a text -/

/-- Type number `i` is of the signature, and type number `j`, the same or a later one, stands for the text. -/
structure Entry (U : Universe) (text : String) (ps : List Ty) (r : Option Ty) (i j : Nat) : Prop where
  lookup : U.signatures.lookup text = some j
  signature : U.signature? (.declared i) = some (ps, r)
  le : i ≤ j
  lt : j < U.decls.size

namespace Entry

theorem delegate (U : Universe) (ps : List Ty) (r : Option Ty) :
    ∃ i, (U.delegate ps r).1 = .declared i ∧ (U.delegate ps r).2.Entry (U.signatureText ps r) ps r i i := by
  rcases delegate_cases U ps r with ⟨k, hk, hsig, heq⟩ | ⟨-, heq⟩
  · rw [heq]
    exact ⟨k, rfl, hk, hsig, Nat.le_refl k, knows_of_signature hsig⟩
  · rw [heq]
    refine ⟨U.decls.size, rfl, ?_, U.withDelegate_signature ps r, Nat.le_refl _, ?_⟩
    · simp [withDelegate, delegate.fresh]
    · simp [withDelegate, delegate.fresh]

/-- **One request**: another type stands for the text afterwards only if a new one was made for it, because the one
before is of another signature. -/
theorem step (h : U.Entry text ps r i j) (q : Request) :
    ((U.answer q).2.Entry text ps r i j ∧ ∀ qs u, q = .delegate qs u → U.signatureText qs u = text →
      U.signature? (.declared j) = some (qs, u)) ∨
    ((U.answer q).2.Entry text ps r i U.decls.size ∧ ∃ qs u, q = .delegate qs u ∧ U.signatureText qs u = text ∧
      U.signature? (.declared j) ≠ some (qs, u)) := by
  have hext := answer_extends U q
  have hsig := hext.signature h.signature
  have hlt : j < (U.answer q).2.decls.size := hext.knows (.declared j) h.lt
  by_cases hq : ∃ qs u, q = .delegate qs u
  · obtain ⟨qs, u, rfl⟩ := hq
    rcases delegate_cases U qs u with ⟨k, hk, hksig, heq⟩ | ⟨hnot, heq⟩
    · refine .inl ⟨by simpa only [answer, heq] using h, ?_⟩
      rintro _ _ ⟨⟩ htext
      rw [htext, h.lookup] at hk
      cases hk
      exact hksig
    · rw [answer, heq] at hsig hlt ⊢
      by_cases htext : U.signatureText qs u = text
      · refine .inr ⟨⟨?_, hsig, Nat.le_of_lt (Nat.lt_of_le_of_lt h.le h.lt), ?_⟩, qs, u, rfl, htext, ?_⟩
        · simp [withDelegate, delegate.fresh, htext]
        · simp [withDelegate, delegate.fresh]
        · exact hnot j (htext ▸ h.lookup)
      · refine .inl ⟨⟨?_, hsig, h.le, hlt⟩, ?_⟩
        · have hne : (text == U.signatureText qs u) = false := beq_false_of_ne (Ne.symm htext)
          simpa only [withDelegate, delegate.fresh, List.lookup_cons, hne] using h.lookup
        · rintro _ _ ⟨⟩ htext'
          exact absurd htext' htext
  · have hsame := (answer_of_ne (U := U) fun qs u h => hq ⟨qs, u, h⟩).1
    exact .inl ⟨⟨hsame ▸ h.lookup, hsig, h.le, hlt⟩, fun qs u h => absurd ⟨qs, u, h⟩ hq⟩

theorem eq_of_answer (h : U.Entry text ps r i j) (ha : (U.delegate qs u).1 = .declared i) : (qs, u) = (ps, r) := by
  have hasked := signature_delegate U qs u
  have hkept : (U.delegate qs u).2.signature? (.declared i) = some (ps, r) :=
    (answer_extends U (.delegate qs u)).signature h.signature
  rw [ha, hkept] at hasked
  exact (Option.some.inj hasked).symm

theorem answer_eq (h : U.Entry (U.signatureText ps r) ps r i i) : (U.delegate ps r).1 = .declared i := by
  rcases delegate_cases U ps r with ⟨k, hk, -, heq⟩ | ⟨hnot, -⟩
  · rw [h.lookup] at hk
    cases hk
    rw [heq]
  · exact absurd h.signature (hnot i h.lookup)

/-- A type that another one has taken the place of is not given out. -/
theorem answer_ne (h : U.Entry (U.signatureText ps r) ps r i j) (hij : i < j) : (U.delegate ps r).1 ≠ .declared i := by
  rcases delegate_cases U ps r with ⟨k, hk, -, heq⟩ | ⟨-, heq⟩
  · rw [h.lookup] at hk
    cases hk
    rw [heq]
    exact fun hi => Nat.ne_of_gt hij (Ty.declared.inj hi)
  · rw [heq]
    exact fun hi => Nat.ne_of_gt (Nat.lt_trans hij h.lt) (Ty.declared.inj hi)

end Entry

/-! ## Histories of requests -/

/-- A request for another signature of the same text. -/
def Displaces (U : Universe) (ps : List Ty) (r : Option Ty) : Request → Prop
  | .delegate qs u => U.signatureText qs u = U.signatureText ps r ∧ (qs, u) ≠ (ps, r)
  | _ => False

namespace Serves

variable {reqs : List Request} {ts : List (Option Ty)} {k : Nat}

theorem ne_of_lt (h : U.Serves reqs ts V) (he : U.Entry (V.signatureText ps r) ps r i j) (hij : i < j)
    (hk : reqs[k]? = some (.delegate qs u)) : ts[k]? ≠ some (some (.declared i)) := by
  induction h generalizing j k with
  | nil => cases hk
  | @cons U V q reqs ts hq h ih =>
    cases k with
    | zero =>
      cases hk
      intro ha
      have ha : (U.delegate qs u).1 = .declared i := Option.some.inj (Option.some.inj ha)
      cases he.eq_of_answer ha
      rw [((answer_extends U _).trans h.extends).signatureText hq] at he
      exact he.answer_ne hij ha
    | succ k =>
      rcases he.step q with ⟨he, -⟩ | ⟨he', -⟩
      · exact ih he hij hk
      · exact ih he' (Nat.lt_trans hij he.lt) hk

/-- **When a type is given out again**: the induction is over the requests, as long as the type stands for the text. -/
theorem eq_iff (h : U.Serves reqs ts V) (he : U.Entry (V.signatureText ps r) ps r i i)
    (hk : reqs[k]? = some (.delegate qs u)) : ts[k]? = some (some (.declared i)) ↔
      (qs, u) = (ps, r) ∧ ∀ m < k, ∀ q, reqs[m]? = some q → ¬V.Displaces ps r q := by
  induction h generalizing k with
  | nil => cases hk
  | @cons U V q reqs ts hq h ih =>
    have hext := (answer_extends U q).trans h.extends
    cases k with
    | zero =>
      cases hk
      refine ⟨fun ha => ⟨he.eq_of_answer (Option.some.inj (Option.some.inj ha)), nofun⟩, ?_⟩
      rintro ⟨⟨⟩, -⟩
      rw [hext.signatureText hq] at he
      exact congrArg (some ∘ some) he.answer_eq
    | succ k =>
      rcases he.step q with ⟨he', hstay⟩ | ⟨he', qs', u', rfl, htext, hne⟩
      · -- the request leaves the type in its place
        have hhead : ¬V.Displaces ps r q := by
          cases q with
          | delegate qs' u' =>
            rintro ⟨htext, hne⟩
            have hsig := hstay qs' u' rfl ((hext.signatureText hq).symm.trans htext)
            exact hne (Option.some.inj (hsig.symm.trans he.signature))
          | _ => exact id
        refine (ih he' hk).trans (and_congr_right fun _ => ⟨fun hall m hm q' hq' => ?_, fun hall m hm q' hq' => ?_⟩)
        · cases m with
          | zero =>
            cases hq'
            exact hhead
          | succ m => exact hall m (Nat.lt_of_succ_lt_succ hm) q' hq'
        · exact hall (m + 1) (Nat.succ_lt_succ hm) q' hq'
      · -- the request puts another type in its place
        have hrest : reqs[k]? = some (.delegate qs u) := hk
        have hnever : ts[k]? ≠ some (some (.declared i)) := ne_of_lt h he' he.lt hrest
        refine iff_of_false hnever fun ⟨_, hall⟩ => ?_
        refine hall 0 (Nat.succ_pos k) _ rfl ⟨(hext.signatureText hq).trans htext, fun heq => ?_⟩
        cases heq
        exact hne he.signature

/-- **Delegate types of a history.** Two requests for delegate types are answered with one type exactly if they ask for
one signature and no request between them asks for another signature of the same text. -/
theorem delegate_eq_iff (h : U.Serves reqs ts V) (hij : i < j) (hi : reqs[i]? = some (.delegate ps r))
    (hj : reqs[j]? = some (.delegate qs u)) : ts[i]? = ts[j]? ↔
      (ps, r) = (qs, u) ∧ ∀ k, i < k → k < j → ∀ q, reqs[k]? = some q → ¬V.Displaces ps r q := by
  induction h generalizing i j with
  | nil => cases hi
  | @cons U V q reqs ts hq h ih =>
    obtain ⟨j, rfl⟩ : ∃ m, j = m + 1 := ⟨j - 1, by omega⟩
    cases i with
    | zero =>
      cases hi
      obtain ⟨n, ha, he⟩ := Entry.delegate U ps r
      rw [← ((answer_extends U _).trans h.extends).signatureText hq] at he
      have hhead : (U.answer (.delegate ps r)).1 = some (.declared n) := congrArg some ha
      simp only [List.getElem?_cons_zero, List.getElem?_cons_succ, hhead]
      rw [eq_comm, eq_iff h he hj, eq_comm]
      refine and_congr_right fun _ => ⟨fun hall k hk hkj q hq => ?_, fun hall k hk q hq => ?_⟩
      · obtain ⟨k, rfl⟩ : ∃ m, k = m + 1 := ⟨k - 1, by omega⟩
        exact hall k (by omega) q hq
      · exact hall (k + 1) (by omega) (by omega) q hq
    | succ i =>
      refine (ih (by omega) hi hj).trans (and_congr_right fun _ =>
        ⟨fun hall k hik hkj q hq => ?_, fun hall k hik hkj q hq => ?_⟩)
      · obtain ⟨k, rfl⟩ : ∃ m, k = m + 1 := ⟨k - 1, by omega⟩
        exact hall k (by omega) (by omega) q hq
      · exact hall (k + 1) (by omega) (by omega) q hq

end Serves

/-! ## Two structs of one name -/

def namesake : Request := .declare ⟨"Point", .struct, []⟩

/-- Delegates over the first struct and over both do not stand in each other's way. -/
theorem namesakes_together : ∃ ts V, ({} : Universe).Serves [namesake, namesake, .delegate [.declared 0] none,
    .delegate [.declared 0, .declared 1] none, .delegate [.declared 0] none] ts V ∧ ts[2]? = ts[4]? := by
  have h : ({} : Universe).Serves [namesake, namesake, .delegate [.declared 0] none,
      .delegate [.declared 0, .declared 1] none, .delegate [.declared 0] none] _ _ :=
    .cons rfl (.cons rfl (.cons (by decide +kernel) (.cons (by decide +kernel) (.cons (by decide +kernel) (.nil _)))))
  refine ⟨_, _, h, (h.delegate_eq_iff (i := 2) (j := 4) (by decide) rfl rfl).2 ⟨rfl, fun k hik hkj q hq => ?_⟩⟩
  obtain rfl : k = 3 := by omega
  cases hq
  rintro ⟨htext, -⟩
  revert htext
  decide +kernel

/-- **Structs of one name get into each other's way**: the second one takes the place of the first, and delegates over
the first get another type from then on. -/
theorem namesakes_apart : ∃ ts V, ({} : Universe).Serves [namesake, namesake, .delegate [.declared 0] none,
    .delegate [.declared 1] none, .delegate [.declared 0] none] ts V ∧ ts[2]? ≠ ts[4]? := by
  have h : ({} : Universe).Serves [namesake, namesake, .delegate [.declared 0] none, .delegate [.declared 1] none,
      .delegate [.declared 0] none] _ _ :=
    .cons rfl (.cons rfl (.cons (by decide +kernel) (.cons (by decide +kernel) (.cons (by decide +kernel) (.nil _)))))
  exact ⟨_, _, h, by decide +kernel⟩

end Universe

end TreeMachine
