import Mathlib.Data.Set.Function
import TreeMachine.Proofs.Store.Heap
import TreeMachine.Proofs.Store.Nesting
import TreeMachine.Proofs.Tree.Encoding

/-!
# What a fingerprint tells

Two trees have the same fingerprint exactly when they are the same up to a renaming of their variables
(`Fingerprint.ofTree_eq_iff`). What "the same" means is said without the encoding:

* **`Value.Same`** for constants: structs are compared field by field, and the NaNs are one constant.
* **`Expr.SameNode`** for single nodes, **`Expr.Same`** for whole trees.

Reading a tree back goes down both trees at once: the head of a node tells how many parts follow, and each part tells
where it ends. Variables are paired off by their numbers (`Encoding.Numbers`).
-/

open List

namespace TreeMachine

open Encoding Store TreeMachine.Expr

variable {vs ws : List Var} {loc : Loc} {i : Nat} {shape shape' : Shape}

variable {v : Value} {n m : Nat} {x y : Expr}

/-! ## Constants -/

inductive Value.Same (s s' : Store) : Value → Value → Prop
  | plain {v : Value} : (∀ loc, v.datum ≠ .aggregate loc) → Same s s' v v
  | nan {t : Option Ty} {w w' : Binary64} : w.isNaN = true → w'.isNaN = true →
    Same s s' ⟨t, .float w⟩ ⟨t, .float w'⟩
  | struct {t : Option Ty} {loc loc' : Loc} :
    (s.fields ⟨t, .aggregate loc⟩).size = (s'.fields ⟨t, .aggregate loc'⟩).size →
    (∀ (i : Nat) f g, (s.fields ⟨t, .aggregate loc⟩)[i]? = some f → (s'.fields ⟨t, .aggregate loc'⟩)[i]? = some g →
      Same s s' f g) →
    Same s s' ⟨t, .aggregate loc⟩ ⟨t, .aggregate loc'⟩

/-- Structs have exactly the fields of their type, and locations fit a word. -/
inductive Value.Filled (U : Universe) (s : Store) : Value → Prop
  | plain {v : Value} : (∀ loc, v.datum ≠ .aggregate loc) → location v.datum < UInt64.size → Filled U s v
  | struct {t : Ty} {loc : Loc} : (s.fields ⟨some t, .aggregate loc⟩).size = U.fieldCount t →
    (∀ f ∈ s.fields ⟨some t, .aggregate loc⟩, Filled U s f) → Filled U s ⟨some t, .aggregate loc⟩

theorem Store.fields_aggregate {s : Store} (h : v.datum = .aggregate loc) :
    s.fields v = ((s.aggregates[loc]?).map (·.fields)).getD #[] := by
  simp [fields, h, fieldOwner, recordFields?]

theorem Store.inlined_eq_fields {s : Store} (h : v.datum = .aggregate loc) : s.inlined v = (s.fields v).toList := by
  rw [fields_aggregate h]
  cases hr : s.aggregates[loc]? <;> simp [inlined, h, hr]

theorem Store.nestsAt_field {s : Store} {f : Value} (h : s.nestsAt (n + 1) v = true)
    (hv : v.datum = .aggregate loc) (hf : f ∈ s.fields v) : s.nestsAt n f = true := by
  rw [nestsAt, descends, inlined_eq_fields hv, all_eq_true] at h
  exact h f (Array.mem_toList_iff.2 hf)

theorem Value.Filled.nests {U : Universe} {s : Store} (h : v.Filled U s) : s.nests v = true := by
  refine nests_iff.2 ?_
  induction h with
  | plain hne _ => exact ⟨1, nestsAt_of_ne hne 0⟩
  | struct _ _ ih =>
    refine exists_descends fun f hf => ih f ?_
    rwa [inlined_eq_fields rfl, Array.mem_toList_iff] at hf

theorem Value.Filled.location {U : Universe} {s : Store} (h : v.Filled U s) :
    location v.datum < UInt64.size := by
  cases h with
  | plain _ hlt => exact hlt
  | struct => exact Nat.two_pow_pos 64

namespace Encoding

variable {U : Universe} {s s' : Store} {a b : Encoding}

theorem continues_content (s : Store) (n : Nat) (e : Encoding) (v : Value) :
    (valueAt s (n + 1) e v).Continues ((e.byte v.datum.tag.toUInt8).type v.type) := by
  induction n generalizing e v with
  | zero =>
    simp only [valueAt]
    split
    any_goals first | exact .refl _ | exact continues_word _ _ | exact continues_text _ _
    rw [← Array.foldl_toList]
    exact continues_foldl (fun e _ _ => .refl e) _
  | succ n ih =>
    rw [valueAt]
    split
    any_goals first | exact .refl _ | exact continues_word _ _ | exact continues_text _ _
    rw [← Array.foldl_toList]
    exact continues_foldl (fun e f _ => (ih e f).trans ((continues_type _ _).trans (continues_byte e _))) _

theorem continues_valueAt (s : Store) (n : Nat) (e : Encoding) (v : Value) : (valueAt s n e v).Continues e := by
  cases n with
  | zero => exact .refl e
  | succ n => exact (continues_content s n e v).trans ((continues_type _ _).trans (continues_byte e _))

theorem valueAt_aggregate (s : Store) (n : Nat) (e : Encoding) (t : Option Ty) (loc : Loc) :
    valueAt s (n + 1) e ⟨t, .aggregate loc⟩ =
      (s.fields ⟨t, .aggregate loc⟩).toList.foldl (valueAt s n)
        ((e.byte (Datum.aggregate loc).tag.toUInt8).type t) := by
  rw [valueAt, Array.foldl_toList]

theorem forall₂_at {α : Type} {Q : α → α → Prop} {xs ys : List α} (h : List.Forall₂ Q xs ys) {x y : α}
    (hx : xs[i]? = some x) (hy : ys[i]? = some y) : Q x y := by
  obtain ⟨hi, rfl⟩ := List.getElem?_eq_some_iff.1 hx
  obtain ⟨hi', rfl⟩ := List.getElem?_eq_some_iff.1 hy
  exact h.get hi hi'

theorem location_eq (hn : n < UInt64.size) (hm : m < UInt64.size) (h : UInt64.ofNat n = UInt64.ofNat m) : n = m := by
  have := congrArg UInt64.toNat h
  rwa [UInt64.toNat_ofNat_of_lt' hn, UInt64.toNat_ofNat_of_lt' hm] at this

theorem canonical_eq {w w' : Binary64}
    (h : (if w.isNaN then Binary64.nan else w) = if w'.isNaN then Binary64.nan else w') :
    w = w' ∨ (w.isNaN = true ∧ w'.isNaN = true) := by
  have hnan : Binary64.nan.isNaN = true := by decide
  split at h <;> split at h
  · next hw hw' => exact .inr ⟨hw, hw'⟩
  · next hw hw' => exact absurd (h ▸ hnan) hw'
  · next hw hw' => exact absurd (h ▸ hnan) hw
  · exact .inl h

theorem level_valueAt {w : Value} (hv : v.Filled U s) (hw : w.Filled U s') (hn : s.nestsAt n v = true)
    (hm : s'.nestsAt m w = true) (h : Level a b) (hg : Agree (valueAt s n a v) (valueAt s' m b w)) :
    v.Same s s' w ∧ Level (valueAt s n a v) (valueAt s' m b w) := by
  induction n generalizing m v w a b with
  | zero => cases hn
  | succ n ih =>
    obtain ⟨m, rfl⟩ : ∃ k, m = k + 1 := by
      cases m with
      | zero => cases hm
      | succ m => exact ⟨m, rfl⟩
    have hhead := hg.back (continues_content s n a v) (continues_content s' m b w)
    obtain ⟨htag, hlevel⟩ := level_byte h (hhead.back (continues_type _ _) (continues_type _ _))
    obtain ⟨htype, hlevel⟩ := level_type hlevel hhead
    obtain ⟨t, d⟩ := v
    obtain ⟨u, d'⟩ := w
    obtain rfl : t = u := htype
    cases d with
    -- equal tags leave one kind of contents for the other value
    | null =>
      cases d' <;> simp [Datum.tag] at htag
      exact ⟨.plain (by simp), hlevel⟩
    | bool x =>
      cases d' with
      | bool y =>
        obtain ⟨hword, hlevel⟩ := level_word hlevel hg
        have : x = y := by cases x <;> cases y <;> simp [Datum.bits] at hword ⊢
        exact ⟨this ▸ .plain (by simp), hlevel⟩
      | _ => simp [Datum.tag] at htag
    | int x =>
      cases d' with
      | int y =>
        obtain ⟨hword, hlevel⟩ := level_word hlevel hg
        have : x = y := congrArg Int64.ofUInt64 hword
        exact ⟨this ▸ .plain (by simp), hlevel⟩
      | _ => simp [Datum.tag] at htag
    | float x =>
      cases d' <;> simp [Datum.tag] at htag
      obtain ⟨hword, hlevel⟩ := level_word hlevel hg
      rcases canonical_eq hword with rfl | ⟨hx, hy⟩
      · exact ⟨.plain (by simp), hlevel⟩
      · exact ⟨.nan hx hy, hlevel⟩
    | text x =>
      cases d' <;> simp [Datum.tag] at htag
      obtain ⟨rfl, hlevel⟩ := level_text hlevel hg
      exact ⟨.plain (by simp), hlevel⟩
    | aggregate loc =>
      cases d' with
      | aggregate loc' =>
        rw [valueAt_aggregate, valueAt_aggregate] at hg ⊢
        cases hv with
        | plain hne => exact absurd rfl (hne loc)
        | struct hsize hfields =>
          cases hw with
          | plain hne => exact absurd rfl (hne loc')
          | struct hsize' hfields' =>
            have hlen := hsize.trans hsize'.symm
            obtain ⟨hall, hend⟩ := level_foldl (P := fun f => f.Filled U s ∧ s.nestsAt n f = true)
              (S := fun f => f.Filled U s' ∧ s'.nestsAt m f = true) (Q := fun _ _ f g => f.Same s s' g)
              (fun e f _ => continues_valueAt s n e f) (fun e f _ => continues_valueAt s' m e f)
                (fun _ _ _ _ _ _ _ _ h => h)
              (fun _ _ _ _ hf hg h hagree => ih hf.1 hg.1 hf.2 hg.2 h hagree)
              (fun f hf => ⟨hfields f (by simpa using hf), nestsAt_field hn rfl (by simpa using hf)⟩)
              (fun f hf => ⟨hfields' f (by simpa using hf), nestsAt_field hm rfl (by simpa using hf)⟩)
              (by simpa using hlen) hlevel hg
            refine ⟨.struct hlen fun i f g hf hg => forall₂_at (i := i) hall ?_ ?_, hend⟩
            · simpa using hf
            · simpa using hg
      | _ => simp [Datum.tag] at htag
    | object loc | box loc | array loc | delegate loc | cell loc =>
      cases d' <;> simp [Datum.tag] at htag
      obtain ⟨hword, hlevel⟩ := level_word hlevel hg
      obtain rfl := location_eq hv.location hw.location hword
      exact ⟨.plain (by simp), hlevel⟩

variable {R : Nat → Nat → Prop}

theorem matched_valueAt {w : Value} (hvw : v.Same s s' w) (hn : s.nestsAt n v = true) (hm : s'.nestsAt m w = true)
    (h : Matched R a b) : Matched R (valueAt s n a v) (valueAt s' m b w) := by
  induction n generalizing m v w a b with
  | zero => cases hn
  | succ n ih =>
    obtain ⟨m, rfl⟩ : ∃ k, m = k + 1 := by
      cases m with
      | zero => cases hm
      | succ m => exact ⟨m, rfl⟩
    cases hvw with
    | @plain v hne =>
      have hhead := matched_type (matched_byte h v.datum.tag.toUInt8) v.type
      obtain ⟨t, d⟩ := v
      cases d with
      | aggregate loc => exact absurd rfl (hne loc)
      | null => exact hhead
      | text x => exact matched_text hhead x
      | _ => exact matched_word hhead _
    | @nan t x y hx hy =>
      have hhead := matched_type (matched_byte h 3) t
      simp only [valueAt, hx, hy]
      exact matched_word hhead _
    | @struct t loc loc' hlen hfields =>
      rw [valueAt_aggregate, valueAt_aggregate]
      have hall : List.Forall₂ (fun f g => f.Same s s' g ∧ s.nestsAt n f = true ∧ s'.nestsAt m g = true)
          (s.fields ⟨t, .aggregate loc⟩).toList (s'.fields ⟨t, .aggregate loc'⟩).toList := by
        refine forall₂_iff_get.2 ⟨by simpa using hlen, fun i hi hi' => ?_⟩
        refine ⟨hfields i _ _ ?_ ?_, nestsAt_field hn rfl ?_, nestsAt_field hm rfl ?_⟩
        all_goals simp at hi hi' ⊢
      exact matched_foldl (fun _ _ _ _ hq h => ih hq.1 hq.2.1 hq.2.2 h) hall (matched_type (matched_byte h 5) t)

end Encoding

/-! ## Nodes -/

def Var.Paired (R : Nat → Nat → Prop) (v w : Var) : Prop := R v.id w.id ∧ v.type = w.type

namespace Expr

/-- Nodes of one kind that agree in everything but their static types and their parts; `R` pairs the variables. -/
inductive SameNode (s s' : Store) (R : Nat → Nat → Prop) : Expr → Expr → Prop
  | constant {v w t u} : v.Same s s' w → SameNode s s' R (.constant v t) (.constant w u)
  | var {v w} : R v.id w.id → SameNode s s' R (.var v) (.var w)
  | member {o o' m} : SameNode s s' R (.member o m) (.member o' m)
  | call {o o' m n args args'} : m.Alike n → SameNode s s' R (.call o m args) (.call o' n args')
  | callStatic {m n args args'} : m.Alike n → SameNode s s' R (.callStatic m args) (.callStatic n args')
  | new {t u c d args args'} : Option.Rel Method.Alike c d → SameNode s s' R (.new t c args) (.new u d args')
  | init {t u c d args args' ms vs vs'} : SameNode s s' R (.init t c args ms vs) (.init u d args' ms vs')
  | convert {e e' m n t u} : Option.Rel Method.Alike m n → SameNode s s' R (.convert e m t) (.convert e' n u)
  | lambda {i j name name' ps qs e e' r r' t u} : List.Forall₂ (Var.Paired R) ps qs →
    SameNode s s' R (.lambda i name ps e r t) (.lambda j name' qs e' r' u)
  | hostVar {name name' cell t u} : SameNode s s' R (.hostVar name cell t) (.hostVar name' cell u)
  | cond {c c' a a' b b'} : SameNode s s' R (.cond c a b) (.cond c' a' b')
  | binary {op l l' r r' m n t u} : Option.Rel Method.Alike m n →
    SameNode s s' R (.binary op l r m t) (.binary op l' r' n u)
  | unary {op e e'} : SameNode s s' R (.unary op e) (.unary op e')
  | assign {a a' b b'} : SameNode s s' R (.assign a b) (.assign a' b')
  | block {i j vs ws es es'} : List.Forall₂ (Var.Paired R) vs ws → SameNode s s' R (.block i vs es) (.block j ws es')
  | apply {f f' args args' r r'} : SameNode s s' R (.apply f args r) (.apply f' args' r')
  | default {t u} : SameNode s s' R (.default t) (.default u)
  | newArray {t n n'} : SameNode s s' R (.newArray t n) (.newArray t n')
  | arrayOf {t items items'} : SameNode s s' R (.arrayOf t items) (.arrayOf t items')
  | index {a a' i i'} : SameNode s s' R (.index a i) (.index a' i')
  | length {a a'} : SameNode s s' R (.length a) (.length a')

theorem SameNode.kind {s s' : Store} {R : Nat → Nat → Prop} (h : x.SameNode s s' R y) : x.kind = y.kind := by
  cases h <;> rfl

theorem Proper.ne_absent {U : Universe} (hx : x.Proper U) : x ≠ .absent := by
  rintro rfl
  exact hx

def Filled (U : Universe) (s : Store) : Expr → Prop
  | .constant v _ => v.Filled U s
  | .hostVar _ cell _ => cell < UInt64.size
  | _ => True

end Expr

namespace Encoding

variable {U : Universe} {s s' : Store} {a b : Encoding}

theorem continues_label (s : Store) (e : Encoding) (x : Expr) : (e.label s x).Continues e := by
  cases x with
  | constant v t => exact continues_valueAt s _ e v
  | var v => exact continues_var e v
  | member o m => exact continues_member e m
  | call o m args | callStatic m args => exact (continues_byte _ _).trans (continues_method e _)
  | new t c args => exact continues_method e c
  | init t c args ms vs => exact continues_list continues_member e ms
  | convert o m t => exact continues_method e m
  | lambda i name ps body r t => exact continues_list continues_declared e ps
  | hostVar name cell t => exact continues_word e _
  | binary op l r m t => exact (continues_method _ m).trans (continues_byte e _)
  | unary op o => exact continues_byte e _
  | block i vs es => exact (continues_nat _ _).trans (continues_list continues_declared e vs)
  | newArray t n => exact (continues_byte _ _).trans (continues_type e t)
  | arrayOf t items => exact (continues_nat _ _).trans ((continues_byte _ _).trans (continues_type e t))
  | _ => exact .refl e

theorem level_vars (h : Level a b) (hg : Agree (list declared a vs) (list declared b ws)) :
    List.Forall₂ (Var.Paired (Numbers (list declared a vs) (list declared b ws))) vs ws ∧
      Level (list declared a vs) (list declared b ws) :=
  level_list (P := fun _ => True) (S := fun _ => True) (Q := fun a b v w => Var.Paired (Numbers a b) v w)
    continues_declared (fun _ _ _ _ _ _ ha hb h => ⟨h.1.later ha hb, h.2⟩) (fun _ _ _ _ _ _ => level_declared)
    (fun _ _ => trivial) (fun _ _ => trivial) h hg

theorem level_members (hU : U.Declared) {ms ns : List Member} (hm : ∀ m ∈ ms, U.DeclaresMember m)
    (hn : ∀ n ∈ ns, U.DeclaresMember n) (h : Level a b) (hg : Agree (list member a ms) (list member b ns)) :
    ms = ns ∧ Level (list member a ms) (list member b ns) := by
  obtain ⟨hall, hlevel⟩ := level_list (P := U.DeclaresMember) (S := U.DeclaresMember) (Q := fun _ _ m n => m = n)
    continues_member (fun _ _ _ _ _ _ _ _ h => h)
    (fun a b m n hm hn h hg => by
      obtain ⟨⟨howner, hname⟩, hlevel⟩ := level_member h hg
      obtain ⟨t, hm⟩ := hm
      obtain ⟨u, hn⟩ := hn
      exact ⟨hU.member_unique hm hn howner hname, hlevel⟩) hm hn h hg
  rw [forall₂_eq_eq_eq] at hall
  exact ⟨hall, hlevel⟩

theorem eq_of_idxOf {α : Type} [DecidableEq α] {l : List α} (hl : l.length < 256) {x y : α} (hx : x ∈ l) (hy : y ∈ l)
    (h : (l.idxOf x).toUInt8 = (l.idxOf y).toUInt8) : x = y := by
  have hltx := idxOf_lt_length_of_mem hx
  have hlty := idxOf_lt_length_of_mem hy
  have hnat := congrArg UInt8.toNat h
  simp only [Nat.toUInt8_eq, UInt8.toNat_ofNat'] at hnat
  exact (idxOf_inj hx).1 (by omega)

theorem kind_inj {k k' : Kind} (h : k.number.toUInt8 = k'.number.toUInt8) : k = k' := by
  have hmem : ∀ k : Kind, k ∈ Kind.all := by intro k; cases k <;> decide
  exact eq_of_idxOf (by decide) (hmem k) (hmem k') h

theorem binaryOp_inj {op op' : BinaryOp} (h : op.number.toUInt8 = op'.number.toUInt8) : op = op' := by
  have hmem : ∀ op : BinaryOp, op ∈ BinaryOp.all := by intro op; cases op <;> decide
  exact eq_of_idxOf (by decide) (hmem op) (hmem op') h

theorem unaryOp_inj {op op' : UnaryOp} (h : op.number.toUInt8 = op'.number.toUInt8) : op = op' := by
  cases op <;> cases op' <;> first | rfl | exact absurd h (by decide)

theorem level_label (hU : U.Declared) (hx : x.Proper U) (hy : y.Proper U) (hfx : x.Filled U s)
    (hfy : y.Filled U s') (hkind : x.kind = y.kind) (h : Level a b) (hg : Agree (a.label s x) (b.label s' y)) :
    x.SameNode s s' (Numbers (a.label s x) (b.label s' y)) y ∧ Level (a.label s x) (b.label s' y) := by
  cases x <;> cases y <;> try cases hkind
  case constant.constant v t w u =>
    obtain ⟨hsame, hlevel⟩ := level_valueAt hfx hfy hfx.nests hfy.nests h hg
    exact ⟨.constant hsame, hlevel⟩
  case var.var v w =>
    obtain ⟨hnumber, hlevel⟩ := level_var h hg
    exact ⟨.var hnumber, hlevel⟩
  case member.member o m o' n =>
    obtain ⟨⟨howner, hname⟩, hlevel⟩ := level_member h hg
    obtain ⟨t, -, hm⟩ := hx
    obtain ⟨u, -, hn⟩ := hy
    obtain rfl := hU.member_unique hm hn howner hname
    exact ⟨.member, hlevel⟩
  case call.call o m args o' n args' =>
    obtain ⟨hm, hlevel⟩ := level_method h (hg.back (continues_byte _ _) (continues_byte _ _))
    cases hm with
    | some hm => exact ⟨.call hm, (level_byte hlevel hg).2⟩
  case call.callStatic | callStatic.call =>
    obtain ⟨-, hlevel⟩ := level_method h (hg.back (continues_byte _ _) (continues_byte _ _))
    exact absurd (level_byte hlevel hg).1 (by decide)
  case callStatic.callStatic m args n args' =>
    obtain ⟨hm, hlevel⟩ := level_method h (hg.back (continues_byte _ _) (continues_byte _ _))
    cases hm with
    | some hm => exact ⟨.callStatic hm, (level_byte hlevel hg).2⟩
  case new.new t c args u d args' =>
    obtain ⟨hc, hlevel⟩ := level_method h hg
    exact ⟨.new hc, hlevel⟩
  case init.init t c args ms vs u d args' ns ws =>
    have hms : ∀ m ∈ ms, U.DeclaresMember m := fun m hm => by
      obtain ⟨i, hi, rfl⟩ := getElem_of_mem hm
      exact (List.Forall₂.get hx hi (hx.length_eq ▸ hi)).2.1
    have hns : ∀ n ∈ ns, U.DeclaresMember n := fun n hn => by
      obtain ⟨i, hi, rfl⟩ := getElem_of_mem hn
      exact (List.Forall₂.get hy hi (hy.length_eq ▸ hi)).2.1
    obtain ⟨rfl, hlevel⟩ := level_members hU hms hns h hg
    exact ⟨.init, hlevel⟩
  case convert.convert o m t o' n u =>
    obtain ⟨hm, hlevel⟩ := level_method h hg
    exact ⟨.convert hm, hlevel⟩
  case lambda.lambda i name ps body r t j name' qs body' r' u =>
    obtain ⟨hall, hlevel⟩ := level_vars h hg
    exact ⟨.lambda hall, hlevel⟩
  case hostVar.hostVar name cell t name' cell' u =>
    obtain ⟨hword, hlevel⟩ := level_word h hg
    obtain rfl := location_eq hfx hfy hword
    exact ⟨.hostVar, hlevel⟩
  case binary.binary op l r m t op' l' r' n u =>
    obtain ⟨hop, hlevel⟩ := level_byte h (hg.back (continues_method _ _) (continues_method _ _))
    obtain rfl := binaryOp_inj hop
    obtain ⟨hm, hlevel⟩ := level_method hlevel hg
    exact ⟨.binary hm, hlevel⟩
  case unary.unary op o op' o' =>
    obtain ⟨hop, hlevel⟩ := level_byte h hg
    obtain rfl := unaryOp_inj hop
    exact ⟨.unary, hlevel⟩
  case block.block i vs es j ws es' =>
    obtain ⟨hall, hlevel⟩ := level_vars h (hg.back (continues_nat _ _) (continues_nat _ _))
    exact ⟨.block hall, (level_nat hlevel hg).2⟩
  case block.absent i vs es => exact hy.elim
  case newArray.newArray t n u n' =>
    obtain ⟨ht, hlevel⟩ := level_type h (hg.back (continues_byte _ _) (continues_byte _ _))
    obtain rfl := Option.some.inj ht
    exact ⟨.newArray, (level_byte hlevel hg).2⟩
  case newArray.arrayOf t n u items =>
    have hback := hg.back (.refl _) (continues_nat _ _)
    obtain ⟨-, hlevel⟩ := level_type h (hback.back (continues_byte _ _) (continues_byte _ _))
    exact absurd (level_byte hlevel hback).1 (by decide)
  case arrayOf.arrayOf t items u items' =>
    have hback := hg.back (continues_nat _ _) (continues_nat _ _)
    obtain ⟨ht, hlevel⟩ := level_type h (hback.back (continues_byte _ _) (continues_byte _ _))
    obtain rfl := Option.some.inj ht
    obtain ⟨-, hlevel⟩ := level_byte hlevel hback
    exact ⟨.arrayOf, (level_nat hlevel hg).2⟩
  case arrayOf.newArray t items u n =>
    have hback := hg.back (continues_nat _ _) (.refl _)
    obtain ⟨-, hlevel⟩ := level_type h (hback.back (continues_byte _ _) (continues_byte _ _))
    exact absurd (level_byte hlevel hback).1 (by decide)
  case absent.absent | absent.block => exact hx.elim
  all_goals exact ⟨by constructor, h⟩

theorem level_head (hU : U.Declared) (hx : x.Proper U) (hy : y.Proper U) (hfx : x.Filled U s)
    (hfy : y.Filled U s') (h : Level a b) (hg : Agree (a.head s x) (b.head s' y)) :
    x.type = y.type ∧ x.SameNode s s' (Numbers (a.head s x) (b.head s' y)) y ∧ Level (a.head s x) (b.head s' y) := by
  have htype := hg.back (continues_label s _ x) (continues_label s' _ y)
  obtain ⟨hkind, hlevel⟩ := level_byte h (htype.back (continues_type _ _) (continues_type _ _))
  obtain ⟨htype, hlevel⟩ := level_type hlevel htype
  exact ⟨htype, level_label hU hx hy hfx hfy (kind_inj hkind) hlevel hg⟩

variable {R : Nat → Nat → Prop}

theorem matched_vars (hR : Relator.BiUnique R) (hvs : List.Forall₂ (Var.Paired R) vs ws)
    (h : Matched R a b) : Matched R (list declared a vs) (list declared b ws) :=
  matched_list (fun _ _ _ _ hvw h => matched_declared hR hvw.1 hvw.2 h) hvs h

theorem matched_head (hR : Relator.BiUnique R) (hxy : x.SameNode s s' R y) (htype : x.type = y.type)
    (hlen : x.children.length = y.children.length) (hfx : x.Filled U s) (hfy : y.Filled U s') (h : Matched R a b) :
    Matched R (a.head s x) (b.head s' y) := by
  have h := matched_type (matched_byte h y.kind.number.toUInt8) y.type
  rw [head, head, hxy.kind, htype]
  cases hxy with
  | constant hvw => exact matched_valueAt hvw (Value.Filled.nests hfx) (Value.Filled.nests hfy) h
  | var hvw => exact matched_var hR hvw h
  | member => exact matched_member h _
  | call hm => exact matched_byte (matched_method (.some hm) h) 1
  | callStatic hm => exact matched_byte (matched_method (.some hm) h) 0
  | new hc => exact matched_method hc h
  | @init _ _ _ _ _ _ ms =>
    exact matched_list (Q := Eq) (fun _ _ _ _ heq h => heq ▸ matched_member h _) (forall₂_refl ms) h
  | convert hm => exact matched_method hm h
  | lambda hvs => exact matched_vars hR hvs h
  | hostVar => exact matched_word h _
  | binary hm => exact matched_method hm (matched_byte h _)
  | unary => exact matched_byte h _
  | block hvs =>
    simp only [label, children] at hlen ⊢
    exact hlen ▸ matched_nat (matched_vars hR hvs h) _
  | newArray => exact matched_byte (matched_type h _) 0
  | arrayOf =>
    simp only [label, children] at hlen ⊢
    exact hlen ▸ matched_nat (matched_byte (matched_type h _) 1) _
  | _ => exact h

/-! ## Trees -/

theorem trees_eq_foldl (s : Store) (e : Encoding) (xs : List Expr) : trees s e xs = xs.foldl (tree s) e := by
  induction xs generalizing e with
  | nil => rw [trees, foldl_nil]
  | cons x xs ih => rw [trees, foldl_cons, ih]

/-- A tree is written from the root: the head, the number of parts, and the parts in order. -/
theorem tree_eq (s : Store) (e : Encoding) (hx : x ≠ .absent) :
    tree s e x = x.children.foldl (tree s) ((e.head s x).nat x.children.length) := by
  cases x with
  | absent => exact absurd rfl hx
  | _ => simp [tree, children, trees_eq_foldl]

theorem continues_tree (hx : x.Checked U) (s : Store) (e : Encoding) : (tree s e x).Continues e := by
  induction hx generalizing e with
  | @node x hp _ ih =>
    rw [tree_eq s e hp.ne_absent]
    have hhead : (e.head s x).Continues e :=
      (continues_label s _ x).trans ((continues_type _ _).trans (continues_byte e _))
    exact (continues_foldl (fun e c hc => ih c hc e) _).trans ((continues_nat _ _).trans hhead)

end Encoding

namespace Expr

variable {s s' : Store} {R S : Nat → Nat → Prop}

/-- Trees that are the same, where `R` pairs their variables. -/
inductive Same (s s' : Store) (R : Nat → Nat → Prop) : Expr → Expr → Prop
  | node {x y : Expr} : x.SameNode s s' R y → x.type = y.type → x.children.length = y.children.length →
    (∀ (i : Nat) c d, x.children[i]? = some c → y.children[i]? = some d → Same s s' R c d) → Same s s' R x y

def names : Expr → List Nat
  | .var v => [v.id]
  | .lambda _ _ params _ _ _ => params.map Var.id
  | .block _ vars _ => vars.map Var.id
  | _ => []

inductive Mentions : Expr → Nat → Prop
  | here {x : Expr} {i : Nat} : i ∈ x.names → Mentions x i
  | child {x c : Expr} {i : Nat} : c ∈ x.children → Mentions c i → Mentions x i

theorem SameNode.names (h : x.SameNode s s' R y) : List.Forall₂ R x.names y.names := by
  have hpaired : ∀ {vs ws}, List.Forall₂ (Var.Paired R) vs ws → List.Forall₂ R (vs.map Var.id) (ws.map Var.id) := by
    intro vs ws h
    rw [forall₂_map_left_iff, forall₂_map_right_iff]
    exact h.imp fun _ _ h => h.1
  cases h with
  | var h => exact .cons h .nil
  | lambda h => exact hpaired h
  | block h => exact hpaired h
  | _ => exact .nil

theorem SameNode.imp (h : x.SameNode s s' R y) (hS : ∀ i ∈ x.names, ∀ j ∈ y.names, R i j → S i j) :
    x.SameNode s s' S y := by
  have hpaired : ∀ {vs ws : List Var}, List.Forall₂ (Var.Paired R) vs ws →
      (∀ i ∈ vs.map Var.id, ∀ j ∈ ws.map Var.id, R i j → S i j) → List.Forall₂ (Var.Paired S) vs ws := by
    intro vs ws h hS
    induction h with
    | nil => exact .nil
    | cons h _ ih =>
      simp only [map_cons, forall_mem_cons] at hS
      exact .cons ⟨hS.1.1 h.1, h.2⟩ (ih fun i hi => (hS.2 i hi).2)
  cases h with
  | var h => exact .var (hS _ (by simp [Expr.names]) _ (by simp [Expr.names]) h)
  | lambda h => exact .lambda (hpaired h hS)
  | block h => exact .block (hpaired h hS)
  | _ => constructor <;> assumption

theorem Same.imp (h : x.Same s s' R y) (hS : ∀ i j, x.Mentions i → y.Mentions j → R i j → S i j) :
    x.Same s s' S y := by
  induction h with
  | node hnode htype hlen _ ih =>
    refine .node (hnode.imp fun i hi j hj => hS i j (.here hi) (.here hj)) htype hlen fun i c d hc hd => ?_
    exact ih i c d hc hd fun i j hi hj =>
      hS i j (.child (mem_of_getElem? hc) hi) (.child (mem_of_getElem? hd) hj)

/-- Each variable that one tree names is paired with one that the other tree names. -/
theorem Same.exists_right (h : x.Same s s' R y) (hi : x.Mentions i) : ∃ j, y.Mentions j ∧ R i j := by
  induction h with
  | @node x y hnode _ hlen _ ih =>
    cases hi with
    | here hi =>
      obtain ⟨k, hk, rfl⟩ := getElem_of_mem hi
      have hk' := hnode.names.length_eq ▸ hk
      exact ⟨_, .here (getElem_mem hk'), hnode.names.get hk hk'⟩
    | child hc hi =>
      obtain ⟨k, hk, rfl⟩ := getElem_of_mem hc
      have hk' := hlen ▸ hk
      obtain ⟨j, hj, hR⟩ := ih k _ _ (getElem?_eq_getElem hk) (getElem?_eq_getElem hk') hi
      exact ⟨j, .child (getElem_mem hk') hj, hR⟩

theorem Same.exists_left (h : x.Same s s' R y) {j : Nat} (hj : y.Mentions j) : ∃ i, x.Mentions i ∧ R i j := by
  induction h with
  | @node x y hnode _ hlen _ ih =>
    cases hj with
    | here hj =>
      obtain ⟨k, hk, rfl⟩ := getElem_of_mem hj
      have hk' := hnode.names.length_eq ▸ hk
      exact ⟨_, .here (getElem_mem hk'), hnode.names.get hk' hk⟩
    | child hc hj =>
      obtain ⟨k, hk, rfl⟩ := getElem_of_mem hc
      have hk' := hlen ▸ hk
      obtain ⟨i, hi, hR⟩ := ih k _ _ (getElem?_eq_getElem hk') (getElem?_eq_getElem hk) hj
      exact ⟨i, .child (getElem_mem hk') hi, hR⟩

/-- Variables that are paired off correspond through a function that is one to one on those that the trees name. -/
theorem Same.exists_bijOn (hR : Relator.BiUnique R) (h : x.Same s s' R y) :
    ∃ f : Nat → Nat, Set.BijOn f {i | x.Mentions i} {j | y.Mentions j} ∧ x.Same s s' (fun i j => f i = j) y := by
  classical
  let f : Nat → Nat := fun i => if hi : ∃ j, R i j then hi.choose else 0
  have hf : ∀ {i j}, R i j → f i = j := by
    intro i j hij
    have hex : ∃ j, R i j := ⟨j, hij⟩
    simp only [f, dif_pos hex]
    exact hR.2 hex.choose_spec hij
  refine ⟨f, ⟨?_, ?_, ?_⟩, h.imp fun i j _ _ hij => hf hij⟩
  · intro i hi
    obtain ⟨j, hj, hij⟩ := h.exists_right hi
    exact (hf hij).symm ▸ hj
  · intro i hi i' hi' heq
    obtain ⟨j, -, hij⟩ := h.exists_right hi
    obtain ⟨j', -, hij'⟩ := h.exists_right hi'
    rw [hf hij, hf hij'] at heq
    exact hR.1 hij (heq ▸ hij')
  · intro j hj
    obtain ⟨i, hi, hij⟩ := h.exists_left hj
    exact ⟨i, hi, hf hij⟩

end Expr

namespace Encoding

variable {U : Universe} {s s' : Store} {a b : Encoding}

theorem level_tree (hU : U.Declared) (hx : x.Checked U) (hy : y.Checked U) (hfx : x.All (Expr.Filled U s))
    (hfy : y.All (Expr.Filled U s')) (h : Level a b) (hg : Agree (tree s a x) (tree s' b y)) :
    x.Same s s' (Numbers (tree s a x) (tree s' b y)) y ∧ Level (tree s a x) (tree s' b y) := by
  induction hx generalizing y a b with
  | @node x hp hc ih =>
    rw [tree_eq s a hp.ne_absent, tree_eq s' b hy.proper.ne_absent] at hg ⊢
    have hx' : ∀ e, (x.children.foldl (tree s) e).Continues e :=
      continues_foldl fun e c hmem => continues_tree (hc c hmem) s e
    have hy' : ∀ e, (y.children.foldl (tree s') e).Continues e :=
      continues_foldl fun e c hmem => continues_tree (hy.child hmem) s' e
    -- the head, then the number of parts
    have hcount := hg.back (hx' _) (hy' _)
    obtain ⟨htype, hnode, hlevel⟩ := level_head hU hp hy.proper hfx.here hfy.here h
      (hcount.back (continues_nat _ _) (continues_nat _ _))
    obtain ⟨hlen, hlevel⟩ := level_nat hlevel hcount
    obtain ⟨hall, hend⟩ := level_foldl (P := fun c => c ∈ x.children) (S := fun c => c ∈ y.children)
      (Q := fun a b c d => c.Same s s' (Numbers a b) d) (fun e c hmem => continues_tree (hc c hmem) s e)
      (fun e c hmem => continues_tree (hy.child hmem) s' e)
      (fun _ _ _ _ _ _ ha hb h => h.imp fun _ _ _ _ h => h.later ha hb)
      (fun _ _ c d hmem hmem' h hg => ih c hmem (hy.child hmem') (hfx.child hmem) (hfy.child hmem') h hg)
      (fun _ h => h) (fun _ h => h) hlen hlevel hg
    refine ⟨.node (hnode.imp fun _ _ _ _ h => ?_) htype hlen fun i c d hc hd => forall₂_at hall hc hd, hend⟩
    exact h.later ((hx' _).trans (continues_nat _ _)) ((hy' _).trans (continues_nat _ _))

theorem matched_tree {R : Nat → Nat → Prop} (hR : Relator.BiUnique R) (hxy : x.Same s s' R y)
    (hx : x.Checked U) (hy : y.Checked U) (hfx : x.All (Expr.Filled U s)) (hfy : y.All (Expr.Filled U s'))
    (h : Matched R a b) : Matched R (tree s a x) (tree s' b y) := by
  induction hxy generalizing a b with
  | @node x y hnode htype hlen _ ih =>
    rw [tree_eq s a hx.proper.ne_absent, tree_eq s' b hy.proper.ne_absent, hlen]
    have hall : List.Forall₂ (fun c d => ∀ a b, Matched R a b → Matched R (tree s a c) (tree s' b d))
        x.children y.children := by
      refine forall₂_iff_get.2 ⟨hlen, fun i hi hi' => ?_⟩
      have hmem := getElem_mem hi
      have hmem' := getElem_mem hi'
      exact fun a b h => ih i _ _ (getElem?_eq_getElem hi) (getElem?_eq_getElem hi') (hx.child hmem)
        (hy.child hmem') (hfx.child hmem) (hfy.child hmem') h
    exact matched_foldl (fun _ _ _ _ hq h => hq _ _ h) hall
      (matched_nat (matched_head hR hnode htype hlen hfx.here hfy.here h) _)

end Encoding

namespace Fingerprint

variable {U : Universe} {s s' : Store}

/-- The shape is written first, and variables are paired off by their numbers in the order of their first uses. -/
theorem same_of_ofTree_eq (hU : U.Declared) {x y : Expr} (hx : x.Checked U) (hy : y.Checked U)
    (hfx : x.All (Expr.Filled U s)) (hfy : y.All (Expr.Filled U s'))
    (h : ofTree s x shape = ofTree s' y shape') :
    shape = shape' ∧ ∃ R : Nat → Nat → Prop, Relator.BiUnique R ∧ x.Same s s' R y := by
  have hagree : Encoding.Agree (.tree s ((list .type {} shape.params).type shape.result) x)
      (.tree s' ((list .type {} shape'.params).type shape'.result) y) :=
    ⟨[], [], congrArg (fun bytes => bytes.toList ++ []) h⟩
  have hresult := hagree.back (continues_tree hx s _) (continues_tree hy s' _)
  have hparams := hresult.back (continues_type _ _) (continues_type _ _)
  obtain ⟨hparams, hlevel⟩ := level_types ⟨rfl, rfl⟩ hparams
  obtain ⟨hresult, hlevel⟩ := level_type hlevel hresult
  obtain ⟨hsame, -⟩ := level_tree hU hx hy hfx hfy hlevel hagree
  have hnodup : ∀ {s x} (shape : Shape), x.Checked U →
      (tree s ((list .type {} shape.params).type shape.result) x).vars.toList.Nodup :=
    fun shape hx => ((continues_tree hx _ _).trans ((continues_type _ _).trans
      (continues_list continues_type {} shape.params))).nodup List.Pairwise.nil
  refine ⟨?_, _, biUnique_numbers (hnodup shape hx) (hnodup shape' hy), hsame⟩
  obtain ⟨params, result⟩ := shape
  obtain ⟨params', result'⟩ := shape'
  obtain rfl : params = params' := hparams
  obtain rfl : result = result' := hresult
  rfl

/-- **A fingerprint tells a tree and a shape up to the renaming of variables.** The variables of one tree correspond to
those of the other through a function that is one to one between the variables that the trees name. Names, the
identity of blocks and lambdas, and the bits of a NaN do not count. -/
theorem ofTree_eq_iff (hU : U.Declared) {x y : Expr} (hx : x.Checked U) (hy : y.Checked U)
    (hfx : x.All (Expr.Filled U s)) (hfy : y.All (Expr.Filled U s')) :
    ofTree s x shape = ofTree s' y shape' ↔ shape = shape' ∧ ∃ f : Nat → Nat,
      Set.BijOn f {i | x.Mentions i} {j | y.Mentions j} ∧ x.Same s s' (fun i j => f i = j) y := by
  constructor
  · intro heq
    obtain ⟨hshape, R, hR, hsame⟩ := same_of_ofTree_eq hU hx hy hfx hfy heq
    exact ⟨hshape, hsame.exists_bijOn hR⟩
  · rintro ⟨rfl, f, hf, hsame⟩
    let R : Nat → Nat → Prop := fun i j => x.Mentions i ∧ f i = j
    have hR : Relator.BiUnique R :=
      ⟨fun i i' j hi hi' => hf.injOn hi.1 hi'.1 (hi.2.trans hi'.2.symm), fun i j j' hj hj' => hj.2.symm.trans hj'.2⟩
    have hstart : Encoding.Matched R (list .type {} shape.params) (list .type {} shape.params) :=
      matched_list (Q := Eq) (fun _ _ _ _ heq h => heq ▸ matched_type h _)
        (forall₂_refl shape.params) ⟨rfl, .nil⟩
    exact (matched_tree hR (hsame.imp fun i j hi _ hij => ⟨hi, hij⟩) hx hy hfx hfy
      (matched_type hstart shape.result)).bytes

/-- A block that adds a number to a variable of its own. -/
def raising (v : Nat) (name : String) (w : Binary64) : Expr :=
  .block v [⟨v, name, .float64⟩] [.assign (.var ⟨v, name, .float64⟩)
    (.binary .add (.var ⟨v, name, .float64⟩) (.constant (.ofFloat w) (some .float64)) none .float64)]

theorem raising_filled (v : Nat) (name : String) (w : Binary64) : (raising v name w).All (Expr.Filled {} {}) := by
  have hvar : ∀ v : Var, (var v).All (Expr.Filled {} {}) := fun v => .node trivial (by simp [children])
  have hconst : (constant (.ofFloat w) (some .float64)).All (Expr.Filled {} {}) :=
    .node (.plain (by simp [Value.ofFloat]) (Nat.two_pow_pos 64)) (by simp [children])
  refine .node trivial (by
    simp only [raising, children, forall_mem_singleton]
    refine .node trivial (forall_mem_cons.2 ⟨hvar _, forall_mem_singleton.2 ?_⟩)
    exact .node trivial (by simp [children, hvar, hconst]))

/-- Neither the variable nor which NaN is added counts. -/
theorem raising_same : ∃ f : Nat → Nat,
    Set.BijOn f {i | (raising 7 "x" 0x7ff8000000000000).Mentions i}
      {j | (raising 9 "y" 0x7ff8000000000001).Mentions j} ∧
      (raising 7 "x" 0x7ff8000000000000).Same {} {} (fun i j => f i = j) (raising 9 "y" 0x7ff8000000000001) :=
  have hequal : ofTree {} (raising 7 "x" 0x7ff8000000000000) {} = ofTree {} (raising 9 "y" 0x7ff8000000000001) {} := by
    decide +kernel
  ((ofTree_eq_iff .empty (checked_of_within 4 (by decide +kernel)) (checked_of_within 4 (by decide +kernel))
    (raising_filled ..) (raising_filled ..)).1 hequal).2

end Fingerprint

end TreeMachine
