import Mathlib.Data.List.Forall2
import Mathlib.Logic.Relator
import TreeMachine.Tree.Fingerprint

/-!
# Reading an encoding back

Every piece of an encoding tells where it ends: numbers by the high bit of their bytes, words by their size, texts and
lists by the length in front of them. So two encodings that are alike up to some point and agree as far as both go
(`Encoding.Agree`) have the same piece next, and are alike up to the end of it (`Encoding.Level`). The lemmas
`level_…` say this of each piece. In the other direction, the lemmas `matched_…` say that the same piece is written in
the same way, where the variables numbered so far correspond (`Encoding.Matched`).
-/

open List

namespace TreeMachine

open Store

/-! ## Numbers, words and texts -/

theorem Ty.number_inj {t u : Ty} (h : t.number = u.number) : t = u := by
  induction t generalizing u <;> cases u <;> simp only [Ty.number] at h <;> grind

theorem Ty.number_pos (t : Ty) : 0 < t.number := by
  induction t <;> simp only [Ty.number] <;> omega

theorem Ty.number?_inj {t u : Option Ty} (h : (t.map Ty.number).getD 0 = (u.map Ty.number).getD 0) : t = u := by
  cases t with
  | none =>
    cases u with
    | none => rfl
    | some u => exact absurd h (Nat.ne_of_lt u.number_pos)
  | some t =>
    cases u with
    | none => exact absurd h (Nat.ne_of_gt t.number_pos)
    | some u => rw [Ty.number_inj h]

theorem Store.length_wordBytes (w : UInt64) : (wordBytes w).length = 8 := by simp [wordBytes]

theorem Store.wordBytes_inj {w w' : UInt64} (h : wordBytes w = wordBytes w') : w = w' := by
  simp [wordBytes, range_succ] at h
  simp only [← UInt8.toNat_inj] at h
  simp [Nat.shiftRight_eq_div_pow] at h
  rw [← UInt64.toNat_inj]
  have := w.toNat_lt
  have := w'.toNat_lt
  omega

namespace Encoding

variable {n m : Nat}

theorem natBytes_append_inj {r r' : List UInt8} (h : natBytes n ++ r = natBytes m ++ r') : n = m ∧ r = r' := by
  have hlow : ∀ {k : Nat}, k < 128 → (UInt8.ofNat k).toNat = k := by
    intro k hk
    simp
    omega
  have hhigh : ∀ k : Nat, (UInt8.ofNat (k % 128 + 128)).toNat = k % 128 + 128 := by
    intro k
    rw [UInt8.toNat_ofNat']
    omega
  induction n using natBytes.induct generalizing m with
  | case1 n hn =>
    rw [natBytes, if_pos hn, natBytes.eq_1 m] at h
    split at h
    · next hm =>
      obtain ⟨hb, hr⟩ := cons.inj h
      have := congrArg UInt8.toNat hb
      rw [hlow hn, hlow hm] at this
      exact ⟨this, hr⟩
    · have := congrArg UInt8.toNat (cons.inj h).1
      rw [hlow hn, hhigh] at this
      omega
  | case2 n hn ih =>
    rw [natBytes, if_neg hn, natBytes.eq_1 m] at h
    split at h
    · next hm =>
      have := congrArg UInt8.toNat (cons.inj h).1
      rw [hlow hm, hhigh] at this
      omega
    · obtain ⟨hb, hr⟩ := cons.inj h
      have hlast := congrArg UInt8.toNat hb
      rw [hhigh, hhigh] at hlast
      obtain ⟨hrest, hr⟩ := ih hr
      exact ⟨by omega, hr⟩

/-! ## Going on with an encoding -/

/-- `b` goes on where `a` ends, and still numbers each variable once. -/
structure Continues (b a : Encoding) : Prop where
  bytes : a.bytes.toList <+: b.bytes.toList
  vars : a.vars.toList <+: b.vars.toList
  nodup : a.vars.toList.Nodup → b.vars.toList.Nodup

variable {a b a' b' : Encoding} {w : List UInt8} {α : Type}

theorem Continues.refl (a : Encoding) : a.Continues a := ⟨prefix_rfl, prefix_rfl, id⟩

theorem Continues.trans {c : Encoding} (h : c.Continues b) (h' : b.Continues a) : c.Continues a :=
  ⟨h'.bytes.trans h.bytes, h'.vars.trans h.vars, h.nodup ∘ h'.nodup⟩

theorem Continues.of_bytes (hb : b.bytes.toList = a.bytes.toList ++ w) (hv : b.vars = a.vars) :
    b.Continues a := ⟨⟨w, hb.symm⟩, hv ▸ prefix_rfl, by rw [hv]; exact id⟩

theorem continues_byte (e : Encoding) (x : UInt8) : (e.byte x).Continues e :=
  .of_bytes (w := [x]) (by simp [byte]) rfl

theorem continues_nat (e : Encoding) (n : Nat) : (e.nat n).Continues e :=
  .of_bytes (w := natBytes n) (by simp [nat]) rfl

theorem continues_word (e : Encoding) (w : UInt64) : (e.word w).Continues e :=
  .of_bytes (w := wordBytes w) (by simp [word]) rfl

theorem continues_text (e : Encoding) (t : String) : (e.text t).Continues e :=
  Continues.trans (b := e.nat t.utf8ByteSize) (.of_bytes (w := t.toUTF8.data.toList) (by simp [text]) rfl)
    (continues_nat e _)

theorem continues_type (e : Encoding) (t : Option Ty) : (e.type t).Continues e := continues_nat e _

theorem continues_foldl {f : Encoding → α → Encoding} {xs : List α} (hf : ∀ e, ∀ x ∈ xs, (f e x).Continues e)
    (e : Encoding) : (xs.foldl f e).Continues e := by
  induction xs generalizing e with
  | nil => exact .refl e
  | cons x xs ih =>
    exact (ih (fun e y hy => hf e y (mem_cons_of_mem x hy)) (f e x)).trans (hf e x mem_cons_self)

theorem continues_list {f : Encoding → α → Encoding} (hf : ∀ e x, (f e x).Continues e) (e : Encoding)
    (xs : List α) : (list f e xs).Continues e :=
  (continues_foldl (fun e x _ => hf e x) (e.nat xs.length)).trans (continues_nat e xs.length)

theorem continues_method (e : Encoding) (m : Option Method) : (e.method m).Continues e := by
  cases m with
  | none => exact continues_nat e 0
  | some m =>
    exact ((continues_list continues_type _ m.params).trans (continues_text _ m.name)).trans (continues_type e m.owner)

theorem continues_member (e : Encoding) (m : Member) : (e.member m).Continues e :=
  (continues_text _ m.name).trans (continues_type e m.owner)

theorem continues_var (e : Encoding) (v : Var) : (e.var v).Continues e := by
  unfold var
  split
  · exact continues_nat e _
  · next hnone =>
    refine (continues_nat _ _).trans ⟨prefix_rfl, ⟨[v.id], by simp⟩, fun h => ?_⟩
    have hnew : v.id ∉ e.vars.toList := fun hmem => by
      have := Array.findIdx?_eq_none_iff.1 hnone v.id (Array.mem_toList_iff.1 hmem)
      simp at this
    simpa [nodup_append] using ⟨h, fun x hx heq => hnew (by simpa [heq] using hx)⟩

theorem continues_declared (e : Encoding) (v : Var) : (e.declared v).Continues e :=
  (continues_type _ _).trans (continues_var e v)

/-! ## Encodings that agree -/

def Agree (a b : Encoding) : Prop := ∃ r r', a.bytes.toList ++ r = b.bytes.toList ++ r'

structure Level (a b : Encoding) : Prop where
  bytes : a.bytes.toList = b.bytes.toList
  vars : a.vars.size = b.vars.size

theorem Agree.back (h : Agree a' b') (ha : a'.Continues a) (hb : b'.Continues b) : Agree a b := by
  obtain ⟨r, r', h⟩ := h
  obtain ⟨w, hw⟩ := ha.bytes
  obtain ⟨w', hw'⟩ := hb.bytes
  rw [← hw, ← hw', append_assoc, append_assoc] at h
  exact ⟨_, _, h⟩

/-- What two encodings that are alike so far write next begins in the same way. -/
theorem next (h : a.bytes.toList = b.bytes.toList) (hg : Agree a' b') {u : List UInt8}
    (ha : a'.bytes.toList = a.bytes.toList ++ u) (hb : b'.bytes.toList = b.bytes.toList ++ w) :
    ∃ r r', u ++ r = w ++ r' := by
  obtain ⟨r, r', hg⟩ := hg
  rw [ha, hb, h, append_assoc, append_assoc] at hg
  exact ⟨r, r', append_cancel_left hg⟩

theorem level_byte {x y : UInt8} (h : Level a b) (hg : Agree (a.byte x) (b.byte y)) :
    x = y ∧ Level (a.byte x) (b.byte y) := by
  obtain ⟨r, r', heq⟩ := next h.bytes (u := [x]) (w := [y]) hg (by simp [byte]) (by simp [byte])
  obtain ⟨rfl, -⟩ := cons.inj heq
  exact ⟨rfl, by simp [byte, h.bytes], h.vars⟩

theorem eq_of_agree_nat (h : a.bytes.toList = b.bytes.toList) (hg : Agree (a.nat n) (b.nat m)) : n = m := by
  obtain ⟨r, r', heq⟩ := next h (u := natBytes n) (w := natBytes m) hg (by simp [nat]) (by simp [nat])
  exact (natBytes_append_inj heq).1

theorem level_nat (h : Level a b) (hg : Agree (a.nat n) (b.nat m)) : n = m ∧ Level (a.nat n) (b.nat m) := by
  obtain rfl := eq_of_agree_nat h.bytes hg
  exact ⟨rfl, by simp [nat, h.bytes], h.vars⟩

theorem level_word {w w' : UInt64} (h : Level a b) (hg : Agree (a.word w) (b.word w')) :
    w = w' ∧ Level (a.word w) (b.word w') := by
  obtain ⟨r, r', heq⟩ := next h.bytes (u := wordBytes w) (w := wordBytes w') hg (by simp [word]) (by simp [word])
  have hlen : (wordBytes w).length = (wordBytes w').length := by
    rw [length_wordBytes, length_wordBytes]
  obtain rfl := wordBytes_inj (append_inj heq hlen).1
  exact ⟨rfl, by simp [word, h.bytes], h.vars⟩

theorem level_text {t u : String} (h : Level a b) (hg : Agree (a.text t) (b.text u)) :
    t = u ∧ Level (a.text t) (b.text u) := by
  -- the length comes first, so the bytes of both texts end at the same place
  have hlast : ∀ (e : Encoding) (t : String), (e.text t).bytes.toList =
      (e.nat t.utf8ByteSize).bytes.toList ++ t.toUTF8.data.toList := by
    intro e t
    simp [text]
  obtain ⟨hsize, hn⟩ := level_nat h (hg.back (.of_bytes (hlast a t) rfl) (.of_bytes (hlast b u) rfl))
  obtain ⟨r, r', heq⟩ := next hn.bytes hg (hlast a t) (hlast b u)
  have hlen : t.toUTF8.data.toList.length = u.toUTF8.data.toList.length := by simpa using hsize
  have hdata := Array.toList_inj.1 (append_inj heq hlen).1
  obtain rfl := String.toByteArray_inj.1 (ByteArray.ext hdata)
  exact ⟨rfl, by rw [hlast, hlast, hn.bytes], h.vars⟩

theorem level_type {t u : Option Ty} (h : Level a b) (hg : Agree (a.type t) (b.type u)) :
    t = u ∧ Level (a.type t) (b.type u) := by
  obtain ⟨heq, hlevel⟩ := level_nat h hg
  exact ⟨Ty.number?_inj heq, hlevel⟩

/-- Pieces one by one. What is said of two pieces (`Q`) may speak of the variables numbered up to the end of them, and
stays true as more are numbered. -/
theorem level_foldl {f g : Encoding → α → Encoding} {P S : α → Prop} {Q : Encoding → Encoding → α → α → Prop}
    (hf : ∀ e x, P x → (f e x).Continues e) (hg : ∀ e y, S y → (g e y).Continues e)
    (hQ : ∀ a b a' b' x y, a'.Continues a → b'.Continues b → Q a b x y → Q a' b' x y)
    (hstep : ∀ a b x y, P x → S y → Level a b → Agree (f a x) (g b y) → Q (f a x) (g b y) x y ∧ Level (f a x) (g b y))
    {xs ys : List α} (hxs : ∀ x ∈ xs, P x) (hys : ∀ y ∈ ys, S y) (hlen : xs.length = ys.length) (h : Level a b)
    (hagree : Agree (xs.foldl f a) (ys.foldl g b)) :
    List.Forall₂ (Q (xs.foldl f a) (ys.foldl g b)) xs ys ∧ Level (xs.foldl f a) (ys.foldl g b) := by
  induction xs generalizing ys a b with
  | nil =>
    obtain rfl := length_eq_zero_iff.1 hlen.symm
    exact ⟨.nil, h⟩
  | cons x xs ih =>
    obtain ⟨y, ys, rfl⟩ := exists_cons_of_length_eq_add_one hlen.symm
    rw [forall_mem_cons] at hxs hys
    have hx := continues_foldl (fun e x hx => hf e x (hxs.2 x hx)) (f a x)
    have hy := continues_foldl (fun e y hy => hg e y (hys.2 y hy)) (g b y)
    obtain ⟨hq, hlevel⟩ := hstep a b x y hxs.1 hys.1 h (hagree.back hx hy)
    obtain ⟨hqs, hend⟩ := ih hxs.2 hys.2 (by simpa using hlen) hlevel hagree
    exact ⟨.cons (hQ _ _ _ _ _ _ hx hy hq) hqs, hend⟩

theorem level_list {f : Encoding → α → Encoding} {P S : α → Prop} {Q : Encoding → Encoding → α → α → Prop}
    (hf : ∀ e x, (f e x).Continues e) (hQ : ∀ a b a' b' x y, a'.Continues a → b'.Continues b → Q a b x y → Q a' b' x y)
    (hstep : ∀ a b x y, P x → S y → Level a b → Agree (f a x) (f b y) → Q (f a x) (f b y) x y ∧ Level (f a x) (f b y))
    {xs ys : List α} (hxs : ∀ x ∈ xs, P x) (hys : ∀ y ∈ ys, S y) (h : Level a b)
    (hagree : Agree (list f a xs) (list f b ys)) :
    List.Forall₂ (Q (list f a xs) (list f b ys)) xs ys ∧ Level (list f a xs) (list f b ys) := by
  obtain ⟨hlen, hlevel⟩ := level_nat h
    (hagree.back (continues_foldl (fun e x _ => hf e x) _) (continues_foldl (fun e x _ => hf e x) _))
  exact level_foldl (fun e x _ => hf e x) (fun e x _ => hf e x) hQ hstep hxs hys hlen hlevel hagree

theorem level_types {ts us : List (Option Ty)} (h : Level a b) (hg : Agree (list type a ts) (list type b us)) :
    ts = us ∧ Level (list type a ts) (list type b us) := by
  obtain ⟨hall, hlevel⟩ := level_list (P := fun _ => True) (S := fun _ => True) (Q := fun _ _ t u => t = u)
    continues_type (fun _ _ _ _ _ _ _ _ h => h) (fun _ _ _ _ _ _ => level_type) (fun _ _ => trivial)
      (fun _ _ => trivial) h hg
  rw [forall₂_eq_eq_eq] at hall
  exact ⟨hall, hlevel⟩

end Encoding

structure Method.Alike (m n : Method) : Prop where
  owner : m.owner = n.owner
  name : m.name = n.name
  params : m.params = n.params

namespace Encoding

variable {a b a' b' e : Encoding} {m n : Option Method} {x y : Nat} {v w : Var} {α : Type}

theorem level_method (h : Level a b) (hg : Agree (a.method m) (b.method n)) :
    Option.Rel Method.Alike m n ∧ Level (a.method m) (b.method n) := by
  -- the number of the owner is not the zero that stands for no method
  have howner : ∀ (e : Encoding) (m : Method), (e.method (some m)).Continues (e.type m.owner) := fun e m =>
    (continues_list continues_type _ m.params).trans (continues_text _ m.name)
  cases m with
  | none =>
    cases n with
    | none => exact ⟨.none, (level_nat h hg).2⟩
    | some n =>
      have hzero := (level_nat h (hg.back (.refl _) (howner b n))).1
      exact absurd hzero (Nat.ne_of_lt n.owner.number_pos)
  | some m =>
    cases n with
    | none =>
      have hzero := (level_nat h (hg.back (howner a m) (.refl _))).1
      exact absurd hzero (Nat.ne_of_gt m.owner.number_pos)
    | some n =>
      obtain ⟨ho, hlevel⟩ := level_type h (hg.back (howner a m) (howner b n))
      obtain ⟨hname, hlevel⟩ := level_text hlevel (hg.back (continues_list continues_type _ m.params)
        (continues_list continues_type _ n.params))
      obtain ⟨hparams, hlevel⟩ := level_types hlevel hg
      exact ⟨.some ⟨Option.some.inj ho, hname, hparams⟩, hlevel⟩

theorem level_member {m n : Member} (h : Level a b) (hg : Agree (a.member m) (b.member n)) :
    (m.owner = n.owner ∧ m.name = n.name) ∧ Level (a.member m) (b.member n) := by
  obtain ⟨ho, hlevel⟩ := level_type h (hg.back (continues_text _ m.name) (continues_text _ n.name))
  obtain ⟨hname, hlevel⟩ := level_text hlevel hg
  exact ⟨⟨Option.some.inj ho, hname⟩, hlevel⟩

/-! ## Variables -/

def Numbers (a b : Encoding) (x y : Nat) : Prop := ∃ i : Nat, a.vars.toList[i]? = some x ∧ b.vars.toList[i]? = some y

theorem Numbers.later (h : Numbers a b x y) (ha : a'.Continues a) (hb : b'.Continues b) : Numbers a' b' x y := by
  obtain ⟨i, hx, hy⟩ := h
  obtain ⟨r, hr⟩ := ha.vars
  obtain ⟨r', hr'⟩ := hb.vars
  refine ⟨i, ?_, ?_⟩
  · rw [← hr, List.getElem?_append_left (List.getElem?_eq_some_iff.1 hx).1, hx]
  · rw [← hr', List.getElem?_append_left (List.getElem?_eq_some_iff.1 hy).1, hy]

theorem biUnique_numbers (ha : a.vars.toList.Nodup) (hb : b.vars.toList.Nodup) : Relator.BiUnique (Numbers a b) := by
  constructor
  · rintro x x' y ⟨i, hx, hy⟩ ⟨j, hx', hy'⟩
    obtain rfl := (List.getElem?_inj (List.getElem?_eq_some_iff.1 hy).1 hb).1 (hy.trans hy'.symm)
    exact Option.some.inj (hx.symm.trans hx')
  · rintro x y y' ⟨i, hx, hy⟩ ⟨j, hx', hy'⟩
    obtain rfl := (List.getElem?_inj (List.getElem?_eq_some_iff.1 hx).1 ha).1 (hx.trans hx'.symm)
    exact Option.some.inj (hy.symm.trans hy')

theorem var_of_some {i : Nat} (h : e.vars.findIdx? (· = v.id) = some i) :
    e.var v = e.nat i ∧ e.vars.toList[i]? = some v.id := by
  refine ⟨by rw [var, h], ?_⟩
  obtain ⟨hi, hid, -⟩ := Array.findIdx?_eq_some_iff_getElem.1 h
  simpa [hi] using hid

theorem var_of_none (h : e.vars.findIdx? (· = v.id) = none) :
    e.var v = { e with vars := e.vars.push v.id }.nat e.vars.size := by rw [var, h]

theorem level_var (h : Level a b) (hg : Agree (a.var v) (b.var w)) :
    Numbers (a.var v) (b.var w) v.id w.id ∧ Level (a.var v) (b.var w) := by
  -- a number below the count belongs to a variable seen before, the count itself to a new one
  cases hv : a.vars.findIdx? (· = v.id) with
  | some i =>
    obtain ⟨hva, hi⟩ := var_of_some hv
    have hlt := (List.getElem?_eq_some_iff.1 hi).1
    cases hw : b.vars.findIdx? (· = w.id) with
    | some j =>
      obtain ⟨hvb, hj⟩ := var_of_some hw
      rw [hva, hvb] at hg ⊢
      obtain ⟨rfl, hlevel⟩ := level_nat h hg
      exact ⟨⟨i, hi, hj⟩, hlevel⟩
    | none =>
      rw [hva, var_of_none hw] at hg
      have hcount : i = b.vars.size := eq_of_agree_nat h.bytes hg
      rw [hcount, ← h.vars] at hlt
      exact absurd hlt (Nat.lt_irrefl _)
  | none =>
    cases hw : b.vars.findIdx? (· = w.id) with
    | some j =>
      obtain ⟨hvb, hj⟩ := var_of_some hw
      have hlt := (List.getElem?_eq_some_iff.1 hj).1
      rw [var_of_none hv, hvb] at hg
      have hcount : a.vars.size = j := eq_of_agree_nat h.bytes hg
      rw [← hcount, h.vars] at hlt
      exact absurd hlt (Nat.lt_irrefl _)
    | none =>
      rw [var_of_none hv, var_of_none hw]
      refine ⟨⟨a.vars.size, by simp [nat], by simp [nat, h.vars]⟩, by simp [nat, h.bytes, h.vars], ?_⟩
      simp [nat, h.vars]

theorem level_declared (h : Level a b) (hg : Agree (a.declared v) (b.declared w)) :
    (Numbers (a.declared v) (b.declared w) v.id w.id ∧ v.type = w.type) ∧ Level (a.declared v) (b.declared w) := by
  have hv := continues_type (a.var v) v.type
  have hw := continues_type (b.var w) w.type
  obtain ⟨hnumber, hlevel⟩ := level_var h (hg.back hv hw)
  obtain ⟨htype, hlevel⟩ := level_type hlevel hg
  exact ⟨⟨hnumber.later hv hw, Option.some.inj htype⟩, hlevel⟩

/-! ## The same pieces are written in the same way -/

/-- The bytes are the same, and the numbered variables correspond. -/
structure Matched (R : Nat → Nat → Prop) (a b : Encoding) : Prop where
  bytes : a.bytes = b.bytes
  vars : List.Forall₂ R a.vars.toList b.vars.toList

variable {R : Nat → Nat → Prop}

theorem matched_byte (h : Matched R a b) (x : UInt8) : Matched R (a.byte x) (b.byte x) :=
  ⟨by simp [byte, h.bytes], h.vars⟩

theorem matched_nat (h : Matched R a b) (n : Nat) : Matched R (a.nat n) (b.nat n) :=
  ⟨by simp [nat, h.bytes], h.vars⟩

theorem matched_word (h : Matched R a b) (w : UInt64) : Matched R (a.word w) (b.word w) :=
  ⟨by simp [word, h.bytes], h.vars⟩

theorem matched_text (h : Matched R a b) (t : String) : Matched R (a.text t) (b.text t) :=
  ⟨by simp [text, nat, h.bytes], h.vars⟩

theorem matched_type (h : Matched R a b) (t : Option Ty) : Matched R (a.type t) (b.type t) := matched_nat h _

theorem matched_foldl {f g : Encoding → α → Encoding} {Q : α → α → Prop}
    (hstep : ∀ a b x y, Q x y → Matched R a b → Matched R (f a x) (g b y)) {xs ys : List α}
    (hall : List.Forall₂ Q xs ys) (h : Matched R a b) : Matched R (xs.foldl f a) (ys.foldl g b) := by
  induction hall generalizing a b with
  | nil => exact h
  | cons hq _ ih => exact ih (hstep _ _ _ _ hq h)

theorem matched_list {f : Encoding → α → Encoding} {Q : α → α → Prop}
    (hstep : ∀ a b x y, Q x y → Matched R a b → Matched R (f a x) (f b y)) {xs ys : List α}
    (hall : List.Forall₂ Q xs ys) (h : Matched R a b) : Matched R (list f a xs) (list f b ys) := by
  rw [list, list, hall.length_eq]
  exact matched_foldl hstep hall (matched_nat h _)

theorem matched_method (hm : Option.Rel Method.Alike m n) (h : Matched R a b) :
    Matched R (a.method m) (b.method n) := by
  cases hm with
  | none => exact matched_nat h 0
  | @some m n hm =>
    simp only [method, hm.owner, hm.name, hm.params]
    exact matched_list (Q := Eq) (fun _ _ _ _ heq h => heq ▸ matched_type h _) (forall₂_refl n.params)
      (matched_text (matched_type h _) _)

theorem matched_member (h : Matched R a b) (m : Member) : Matched R (a.member m) (b.member m) :=
  matched_text (matched_type h _) _

/-- Variables that correspond appear for the first time at the same place. -/
theorem findIdx?_of_forall₂ (hR : Relator.BiUnique R) (hxy : R x y) {xs ys : List Nat}
    (h : List.Forall₂ R xs ys) : xs.findIdx? (fun z => decide (z = x)) = ys.findIdx? (fun z => decide (z = y)) := by
  induction h with
  | nil => rfl
  | @cons x' y' xs ys hxy' _ ih =>
    have hiff : x' = x ↔ y' = y :=
      ⟨fun heq => hR.2 (heq ▸ hxy') hxy, fun heq => hR.1 (heq ▸ hxy') hxy⟩
    simp only [findIdx?_cons, hiff, ih]

theorem matched_var (hR : Relator.BiUnique R) (hvw : R v.id w.id) (h : Matched R a b) :
    Matched R (a.var v) (b.var w) := by
  have hidx : a.vars.findIdx? (fun z => decide (z = v.id)) = b.vars.findIdx? (fun z => decide (z = w.id)) := by
    have hlist : ∀ (vars : Array Nat) (x : Nat),
        vars.findIdx? (fun z => decide (z = x)) = vars.toList.findIdx? fun z => decide (z = x) := by
      rintro ⟨vars⟩ x
      simp
    rw [hlist, hlist]
    exact findIdx?_of_forall₂ hR hvw h.vars
  have hsize : a.vars.size = b.vars.size := by simpa using h.vars.length_eq
  unfold var
  rw [hidx]
  split
  · exact matched_nat h _
  · refine ⟨by simp [nat, h.bytes, hsize], ?_⟩
    simpa [nat] using rel_append h.vars (.cons hvw .nil)

theorem matched_declared (hR : Relator.BiUnique R) (hvw : R v.id w.id) (ht : v.type = w.type)
    (h : Matched R a b) : Matched R (a.declared v) (b.declared w) := by
  rw [declared, declared, ht]
  exact matched_type (matched_var hR hvw h) _

end Encoding

end TreeMachine
