import Mathlib.Data.List.Forall2
import TreeMachine.Proofs.Code.Certificate

/-!
# Code with its slots renamed

Two pieces of code that keep the same variables in different slots. Their instructions start at the same
offsets and have the same operands, slots apart. Which slots of one frame hold what slots of the other
hold changes as the code runs, and is part of what is known before an instruction, just as the facts
about slots are part of a certificate.

A store makes its two slots agree and forgets what was known of either. So a slot may hold one variable
after the other, as long as each is stored before it is read.
-/

open List

namespace TreeMachine

open Codegen

variable {big big' : Image} {i j m' n' : Nat}

/-! ## Slots that agree -/

/-- Slots that hold the same: `(i, j)` says it of slot `i` of one frame and slot `j` of another. -/
abbrev SlotPairs := List (Nat × Nat)

namespace SlotPairs

def learn (known : SlotPairs) (i j : Nat) : SlotPairs :=
  (i, j) :: known.filter fun x => x.1 ≠ i ∧ x.2 ≠ j

theorem mem_learn {known : SlotPairs} {x : Nat × Nat} (hx : x = (i, j) ∨ x ∈ known)
    (hne : x.1 = i ↔ x.2 = j) : x ∈ known.learn i j := by
  by_cases hi : x.1 = i
  · rw [show x = (i, j) from Prod.ext hi (hne.1 hi)]
    exact mem_cons_self
  · have hj : x.2 ≠ j := fun h => hi (hne.2 h)
    refine mem_cons_of_mem _ (mem_filter.2 ⟨hx.resolve_left fun h => hi (by rw [h]), ?_⟩)
    simp [hi, hj]

def Agree (known : SlotPairs) (l r : Array Value) : Prop := ∀ x ∈ known, r[x.2]? = l[x.1]?

namespace Agree

variable {known known' : SlotPairs} {l r : Array Value}

theorem mono (h : known.Agree l r) (hsub : known' ⊆ known) : known'.Agree l r :=
  fun x hx => h x (hsub hx)

theorem set (h : known.Agree l r) (v : Value) (hi : i < l.size) (hj : j < r.size) :
    (known.learn i j).Agree (l.setIfInBounds i v) (r.setIfInBounds j v) := by
  intro x hx
  rcases mem_cons.1 hx with rfl | hx
  · rw [Array.getElem?_setIfInBounds_self_of_lt hi, Array.getElem?_setIfInBounds_self_of_lt hj]
  · obtain ⟨hx, hne⟩ := mem_filter.1 hx
    simp only [ne_eq, decide_eq_true_eq] at hne
    rw [Array.getElem?_setIfInBounds_ne (Ne.symm hne.1), Array.getElem?_setIfInBounds_ne (Ne.symm hne.2)]
    exact h x hx

end Agree

end SlotPairs

/-! ## Pairs of instructions -/

structure Capture.Alike (known : SlotPairs) (k k' : Capture) : Prop where
  source : k'.source = k.source
  index : match k.source with
    | .slot | .slotCell => ∃ i j : Nat, k.index = i ∧ k'.index = j ∧ (i, j) ∈ known
    | _ => k'.index = k.index

/-- Two instructions with the same opcode, and the slots that agree before they run. -/
structure PointPair where
  op : Opcode
  left : List Nat
  right : List Nat
  depth : Nat
  known : SlotPairs

namespace PointPair

def first (p : PointPair) : Point := ⟨p.op, p.left, ⟨0, 0⟩, p.depth, []⟩

def second (p : PointPair) : Point := ⟨p.op, p.right, ⟨0, 0⟩, p.depth, []⟩

def after (p : PointPair) : SlotPairs :=
  match p.op, p.left, p.right with
  | .storeLocal, [i], [j] | .makeCell, [i], [j] => p.known.learn i j
  | _, _, _ => p.known

/-- The operands are the same; those that are slots agree where they are read. A closure is made from
two functions that capture the same. `n` and `m` are the numbers of slots of the two frames. -/
def Fits (image image' : Image) (constants : Array Constant) (n m : Nat) (p : PointPair) : Prop :=
  match p.op, p.left, p.right with
  | .loadLocal, [i], [j] | .makeCell, [i], [j] | .loadCell, [i], [j] | .storeCell, [i], [j] =>
    (i, j) ∈ p.known
  | .storeLocal, [i], [j] => i < n ∧ j < m
  | .closure, [i], [j] => j = i ∧ ∃ (k : Nat) (f g : Function), constants[i]? = some (.function k) ∧
    image[k]? = some f ∧ image'[k]? = some g ∧ List.Forall₂ (Capture.Alike p.known) f.captures g.captures
  | _, left, right => right = left

variable {image image' : Image} {ks : Array Constant} {n m : Nat} {p : PointPair}

theorem Fits.mono {ks' : Array Constant} (h : p.Fits image image' ks n m)
    (hi : Array.Grows big image) (hi' : Array.Grows big' image') (hk : Array.Grows ks' ks) (hn : n ≤ n')
    (hm : m ≤ m') : p.Fits big big' ks' n' m' := by
  unfold Fits at h ⊢
  split at h
  · exact h
  · exact h
  · exact h
  · exact h
  · exact ⟨Nat.lt_of_lt_of_le h.1 hn, Nat.lt_of_lt_of_le h.2 hm⟩
  · obtain ⟨he, k, f, g, hc, hf, hg, hcaps⟩ := h
    exact ⟨he, k, f, g, hk _ _ hc, hi _ _ hf, hi' _ _ hg, hcaps⟩
  · exact h

theorem op_of_jumps (h : p.first.jumps = true) : p.op = .jump ∨ p.op = .jumpIfFalse := by
  unfold Point.jumps at h
  split at h
  · rename_i hop
    exact .inl hop
  · rename_i hop
    exact .inr hop
  · cases h

theorem after_of_jumps (h : p.first.jumps = true) : p.after = p.known := by
  unfold after
  rcases op_of_jumps h with hop | hop <;> rw [hop]

theorem fits_of_jumps (h : p.first.jumps = true) (he : p.right = p.left) : p.Fits image image' ks n m := by
  unfold Fits
  rcases op_of_jumps h with hop | hop
  · rw [hop]
    exact he
  · rw [hop]
    exact he

end PointPair

def putPair (P : Nat → Option PointPair) (o : Nat) (p : PointPair) : Nat → Option PointPair :=
  fun o' => if o' = o then some p else P o'

theorem putPair_self (P : Nat → Option PointPair) (o : Nat) (p : PointPair) : putPair P o p o = some p :=
  if_pos rfl

variable {o o' : Nat}

theorem putPair_ne (P : Nat → Option PointPair) (p : PointPair) (h : o' ≠ o) : putPair P o p o' = P o' :=
  if_neg h

theorem putPair_cases {P : Nat → Option PointPair} {p q : PointPair} (h : putPair P o p o' = some q) :
    (o' = o ∧ q = p) ∨ (o' ≠ o ∧ P o' = some q) := by
  unfold putPair at h
  split_ifs at h with ho
  · exact .inl ⟨ho, (Option.some.inj h).symm⟩
  · exact .inr ⟨ho, h⟩

theorem map_putPair (P : Nat → Option PointPair) (o : Nat) (p : PointPair) (side : PointPair → Point) :
    (fun o' => (putPair P o p o').map side) = putPoint (fun o' => (P o').map side) o (side p) := by
  funext o'
  unfold putPair putPoint
  split_ifs <;> rfl

/-! ## Renamed code -/

/-- Control arrives at offset `o`, where the pairs in `facts` agree: at a pair of instructions that asks
for no more, or at the end of the code, where `known` is all that is asked for. -/
def ArrivesAlike (P : Nat → Option PointPair) (size : Nat) (known : SlotPairs) (o : Nat) (facts : SlotPairs) : Prop :=
  (∃ q, P o = some q ∧ q.known ⊆ facts) ∨ (o = size ∧ known ⊆ facts)

/-- The pairs that agree when a call starts: the slots of the parameters. -/
def AgreeAtEntry (n m : Nat) (known : SlotPairs) : Prop := ∀ x ∈ known, x.2 = x.1 ∧ x.1 < n ∧ x.1 < m

/-- Two chunks are the same code with renamed slots. `opened` are the jumps that lead nowhere yet, with
the pairs they carry, `known` are the pairs that agree where the next instruction will be. -/
structure Renamed (image image' : Image) (c d : Chunk) (n m : Nat) (opened : List (Nat × SlotPairs))
    (known : SlotPairs) (P : Nat → Option PointPair) : Prop where
  first : Layout c fun o => (P o).map PointPair.first
  second : Layout d fun o => (P o).map PointPair.second
  size : d.code.size = c.code.size
  constants : d.constants = c.constants
  depths : d.depths = c.depths
  fits : ∀ {o p}, P o = some p → p.Fits image image' c.constants n m
  falls : ∀ {o p}, P o = some p → p.first.falls = true →
    ArrivesAlike P c.code.size known (o + p.op.size) p.after
  jumps : ∀ {o p}, P o = some p → p.first.jumps = true → (∃ x ∈ opened, x.1 = o) ∨
    ArrivesAlike P c.code.size known (p.first.target o) p.after
  opened : ∀ x ∈ opened, ∃ p, P x.1 = some p ∧ p.first.jumps = true ∧ p.known = x.2
  entry : (∃ p, P 0 = some p ∧ AgreeAtEntry n m p.known) ∨ (c.code.size = 0 ∧ AgreeAtEntry n m known)

namespace Renamed

variable {image image' : Image} {c d : Chunk} {n m o : Nat} {opened opened' : List (Nat × SlotPairs)}
  {known known' : SlotPairs} {P : Nat → Option PointPair} {p : PointPair}

theorem lt (h : Renamed image image' c d n m opened known P) (hp : P o = some p) : o < c.code.size :=
  h.first.lt (p := p.first) (by rw [hp]; rfl)

theorem fits_size (h : Renamed image image' c d n m opened known P) (hp : P o = some p) : o + p.op.size ≤ c.code.size :=
  h.first.fits (p := p.first) (by rw [hp]; rfl)

theorem empty (hc : c.code = #[]) (hd : d.code = #[]) (hks : d.constants = c.constants)
    (hdepths : d.depths = c.depths) (hcover : c.DepthsCover) (hcover' : d.DepthsCover)
    (hentry : AgreeAtEntry n m known) : Renamed image image' c d n m [] known fun _ => none where
  first := .empty hc hcover
  second := .empty hd hcover'
  size := by rw [hc, hd]
  constants := hks
  depths := hdepths
  fits h := nomatch h
  falls h := nomatch h
  jumps h := nomatch h
  opened _ h := nomatch h
  entry := .inr ⟨by rw [hc]; rfl, hentry⟩

/-- **Changes beside the code.** Constants, functions and slots may be added, and pairs forgotten. -/
theorem change (h : Renamed image image' c d n m opened known P)
    {ks : Array Constant} (hi : Array.Grows big image) (hi' : Array.Grows big' image')
    (hks : Array.Grows ks c.constants) (hn : n ≤ n') (hm : m ≤ m') (hknown : known' ⊆ known) :
    Renamed big big' { c with constants := ks } { d with constants := ks } n' m' opened known' P := by
  have harr : ∀ {o facts}, ArrivesAlike P c.code.size known o facts →
      ArrivesAlike P c.code.size known' o facts := fun ha =>
    ha.imp id fun ⟨ho, hsub⟩ => ⟨ho, List.Subset.trans hknown hsub⟩
  have hentry : ∀ {known : SlotPairs}, AgreeAtEntry n m known → AgreeAtEntry n' m' known :=
    fun ha x hx => ⟨(ha x hx).1, Nat.lt_of_lt_of_le (ha x hx).2.1 hn, Nat.lt_of_lt_of_le (ha x hx).2.2 hm⟩
  exact
    { first := h.first.constants ks
      second := h.second.constants ks
      size := h.size
      constants := rfl
      depths := h.depths
      fits := fun hp => (h.fits hp).mono hi hi' hks hn hm
      falls := fun hp hf => harr (h.falls hp hf)
      jumps := fun hp hj => (h.jumps hp hj).imp id harr
      opened := h.opened
      entry := h.entry.imp (fun ⟨p, hp, hk⟩ => ⟨p, hp, hentry hk⟩)
        fun ⟨h0, hk⟩ => ⟨h0, hentry fun x hx => hk x (hknown hx)⟩ }

theorem enlarge (h : Renamed image image' c d n m opened known P)
    (hi : Array.Grows big image) (hi' : Array.Grows big' image') (hn : n ≤ n') (hm : m ≤ m')
    (hknown : known' ⊆ known) : Renamed big big' c d n' m' opened known' P := by
  have hbig := h.change hi hi' (.refl _) hn hm hknown
  rwa [show { d with constants := c.constants } = d by rw [← h.constants]] at hbig

theorem depths_writeOperands (ws : List Opcode.Width) (vs vs' : List Nat) (c d : Chunk)
    (hlen : vs.length = ws.length) (hlen' : vs'.length = ws.length) (h : d.depths = c.depths) :
    (writeOperands ws vs' d).depths = (writeOperands ws vs c).depths := by
  induction ws generalizing vs vs' c d with
  | nil =>
    obtain rfl := eq_nil_of_length_eq_zero hlen
    obtain rfl := eq_nil_of_length_eq_zero hlen'
    exact h
  | cons w ws ih =>
    match vs, vs', hlen, hlen' with
    | v :: vs, v' :: vs', hlen, hlen' =>
      cases w with
      | one | two =>
        simp only [writeOperands]
        exact ih _ _ _ _ (Nat.succ.inj hlen) (Nat.succ.inj hlen') (by simp only [Chunk.write, h])

/-- **Writing a pair of instructions.** Behind it, no more may be asked for than agrees after it. A jump
becomes an open one. -/
theorem write (h : Renamed image image' c d n m opened known P) (hleft : p.left.length = p.op.operands.length)
    (hright : p.right.length = p.op.operands.length) (hfit : oversized? p.op.operands p.left = none)
    (hfit' : oversized? p.op.operands p.right = none) (hp : p.known = known)
    (hfits : p.Fits image image' c.constants n m) (hknown : known' ⊆ p.after)
    (hopened : opened' = if p.first.jumps = true then (c.code.size, p.known) :: opened else opened) :
    Renamed image image' (writeOperands p.op.operands p.left (c.write p.op.byte p.depth))
      (writeOperands p.op.operands p.right (d.write p.op.byte p.depth)) n m opened' known'
      (putPair P c.code.size p) := by
  have hsize : (writeOperands p.op.operands p.left (c.write p.op.byte p.depth)).code.size =
      c.code.size + p.op.size := by
    rw [size_writeOperands _ _ _ hleft, p.op.size_eq, Chunk.code_write, Array.size_push]
    omega
  -- control that arrived at the end arrives at the new pair
  have harr : ∀ {o facts}, ArrivesAlike P c.code.size known o facts →
      ∃ q, putPair P c.code.size p o = some q ∧ q.known ⊆ facts := by
    intro o facts ha
    rcases ha with ⟨q, hq, hsub⟩ | ⟨rfl, hsub⟩
    · exact ⟨q, by rw [putPair_ne _ _ (Nat.ne_of_lt (h.lt hq)), hq], hsub⟩
    · exact ⟨p, putPair_self _ _ _, by rw [hp]; exact hsub⟩
  have hlayout := h.first.write (p := p.first) hleft hfit
  have hlayout' := h.second.write (p := p.second) hright hfit'
  rw [h.size] at hlayout'
  refine
    { first := by rw [map_putPair]; exact hlayout
      second := by rw [map_putPair]; exact hlayout'
      size := ?_
      constants := by simp [h.constants]
      depths := depths_writeOperands _ _ _ _ _ hleft hright (by simp only [Chunk.write, h.depths])
      fits := fun {o q} hq => ?_
      falls := fun {o q} hq hf => ?_
      jumps := fun {o q} hq hj => ?_
      opened := fun x hx => ?_
      entry := .inl ?_ }
  · rw [size_writeOperands _ _ _ hright, size_writeOperands _ _ _ hleft]
    simp only [Chunk.code_write, Array.size_push, h.size]
  · rw [constants_writeOperands, Chunk.constants_write]
    rcases putPair_cases hq with ⟨-, rfl⟩ | ⟨-, hq⟩
    · exact hfits
    · exact h.fits hq
  · rcases putPair_cases hq with ⟨rfl, rfl⟩ | ⟨-, hq⟩
    · exact .inr ⟨hsize.symm, hknown⟩
    · exact .inl (harr (h.falls hq hf))
  · rcases putPair_cases hq with ⟨rfl, rfl⟩ | ⟨-, hq⟩
    · rw [if_pos hj] at hopened
      exact .inl ⟨_, by rw [hopened]; exact mem_cons_self, rfl⟩
    · refine (h.jumps hq hj).imp (fun ⟨x, hx, ho⟩ => ⟨x, ?_, ho⟩) fun ha => .inl (harr ha)
      rw [hopened]
      split_ifs
      · exact mem_cons_of_mem _ hx
      · exact hx
  · have hold : ∀ x ∈ opened, ∃ q, putPair P c.code.size p x.1 = some q ∧ q.first.jumps = true ∧
        q.known = x.2 := by
      intro x hx
      obtain ⟨q, hq, hrest⟩ := h.opened x hx
      exact ⟨q, by rw [putPair_ne _ _ (Nat.ne_of_lt (h.lt hq)), hq], hrest⟩
    rw [hopened] at hx
    split_ifs at hx with hj
    · rcases mem_cons.1 hx with rfl | hx
      · exact ⟨p, putPair_self _ _ _, hj, rfl⟩
      · exact hold x hx
    · exact hold x hx
  · rcases h.entry with ⟨q, hq, hrest⟩ | ⟨h0, hk⟩
    · exact ⟨q, by rw [putPair_ne _ _ (Nat.ne_of_lt (h.lt hq)), hq], hrest⟩
    · rw [h0]
      exact ⟨p, putPair_self _ _ _, by rw [hp]; exact hk⟩

/-- **Patching a jump.** It leads to where the next instruction will be, so the pairs it carries must be
enough there. -/
theorem patch {facts : SlotPairs} (h : Renamed image image' c d n m ((o, facts) :: opened) known P)
    (hfacts : known ⊆ facts) (hle : c.code.size - (o + 1) - 2 ≤ 65535) :
    ∃ P', Renamed image image' (c.setDistance (o + 1) (c.code.size - (o + 1) - 2))
      (d.setDistance (o + 1) (c.code.size - (o + 1) - 2)) n m opened known P' := by
  obtain ⟨p, hp, hj, hpfacts⟩ := h.opened _ mem_cons_self
  dsimp only at hp hpfacts
  generalize hdist : c.code.size - (o + 1) - 2 = dist at hle
  have hp₁ : (P o).map PointPair.first = some p.first := by rw [hp]; rfl
  have hp₂ : (P o).map PointPair.second = some p.second := by rw [hp]; rfl
  have hsize : p.op.size = 3 := by
    have hwidth : p.op.operands = [.two] := Layout.operands_of_jumps hj
    rw [p.op.size_eq, hwidth]
    rfl
  have hfits := h.fits_size hp
  have htarget : o + p.op.size + dist = c.code.size := by omega
  -- control arrives where it did before, and through the patched jump
  let p' : PointPair := { p with left := [dist], right := [dist] }
  have harr : ∀ {o' facts'}, ArrivesAlike P c.code.size known o' facts' →
      ArrivesAlike (putPair P o p') c.code.size known o' facts' := by
    intro o' facts' ha
    refine ha.imp (fun ⟨q, hq, hsub⟩ => ?_) id
    by_cases ho : o' = o
    · subst ho
      rw [hp] at hq
      cases hq
      exact ⟨p', putPair_self _ _ _, hsub⟩
    · exact ⟨q, by rw [putPair_ne _ _ ho, hq], hsub⟩
  have hafter : p'.after = p.known := PointPair.after_of_jumps (p := p') hj
  have hlayout := h.first.patch hp₁ hj hle
  have hlayout' := h.second.patch hp₂ hj hle
  refine ⟨putPair P o p',
    { first := by rw [map_putPair]; exact hlayout
      second := by rw [map_putPair]; exact hlayout'
      size := by simp only [Chunk.size_setDistance, h.size]
      constants := h.constants
      depths := h.depths
      fits := fun {o' q} hq => ?_
      falls := fun {o' q} hq hf => ?_
      jumps := fun {o' q} hq hqj => ?_
      opened := fun x hx => ?_
      entry := ?_ }⟩
  · rcases putPair_cases hq with ⟨-, rfl⟩ | ⟨-, hq⟩
    · exact PointPair.fits_of_jumps (p := p') hj rfl
    · exact h.fits hq
  · rw [Chunk.size_setDistance]
    rcases putPair_cases hq with ⟨rfl, rfl⟩ | ⟨-, hq⟩
    · have ha := harr (h.falls hp hf)
      rw [PointPair.after_of_jumps hj] at ha
      rw [hafter]
      exact ha
    · exact harr (h.falls hq hf)
  · rw [Chunk.size_setDistance]
    rcases putPair_cases hq with ⟨rfl, rfl⟩ | ⟨hne, hq⟩
    · refine .inr (.inr ⟨htarget, ?_⟩)
      rw [hafter, hpfacts]
      exact hfacts
    · rcases h.jumps hq hqj with ⟨x, hx, hxo⟩ | ha
      · rcases mem_cons.1 hx with rfl | hx
        · exact absurd hxo.symm hne
        · exact .inl ⟨x, hx, hxo⟩
      · exact .inr (harr ha)
  · obtain ⟨q, hq, hqj, hqk⟩ := h.opened x (mem_cons_of_mem _ hx)
    by_cases ho : x.1 = o
    · rw [ho, hp] at hq
      cases hq
      exact ⟨p', by rw [ho]; exact putPair_self _ _ _, hj, hqk⟩
    · exact ⟨q, by rw [putPair_ne _ _ ho, hq], hqj, hqk⟩
  · rcases h.entry with ⟨q, hq, hqk⟩ | ⟨h0, -⟩
    · by_cases ho : 0 = o
      · rw [ho, hp] at hq
        cases hq
        exact .inl ⟨p', by rw [ho]; exact putPair_self _ _ _, hqk⟩
      · exact .inl ⟨q, by rw [putPair_ne _ _ ho, hq], hqk⟩
    · have := h.lt hp
      omega

end Renamed

/-! ## Functions -/

structure Function.Alike (image image' : Image) (f g : Function) : Prop where
  name : g.name = f.name
  arity : g.arity = f.arity
  type : g.type = f.type
  code : ∃ (n m : Nat) (known : SlotPairs) (P : Nat → Option PointPair),
    f.locals = n ∧ g.locals = m ∧ Renamed image image' f.chunk g.chunk n m [] known P

structure Image.Alike (image image' : Image) : Prop where
  size : image'.size = image.size
  function : ∀ {k : Nat} {f g : Function}, image[k]? = some f → image'[k]? = some g →
    f.Alike image image' g

variable {image image' : Image} {f g : Function}

theorem Function.Alike.mono (h : f.Alike image image' g) (hi : Array.Grows big image)
    (hi' : Array.Grows big' image') : f.Alike big big' g := by
  obtain ⟨n, m, known, P, hn, hm, hP⟩ := h.code
  refine ⟨h.name, h.arity, h.type, n, m, known, P, hn, hm, ?_⟩
  have hchunk : { g.chunk with constants := f.chunk.constants } = g.chunk := by rw [← hP.constants]
  have hbig := hP.change hi hi' (.refl _) (Nat.le_refl n) (Nat.le_refl m) (List.Subset.refl known)
  rw [hchunk] at hbig
  exact hbig

theorem Image.Alike.push (h : image.Alike image') (hf : f.Alike image image' g) :
    Image.Alike (image.push f) (image'.push g) := by
  have hgrows := Array.grows_push image f
  have hgrows' := Array.grows_push image' g
  refine ⟨by simp [h.size], fun {k a b} ha hb => ?_⟩
  rw [Array.getElem?_push] at ha hb
  rw [h.size] at hb
  split_ifs at ha hb
  · cases ha
    cases hb
    exact hf.mono hgrows hgrows'
  · exact (h.function ha hb).mono hgrows hgrows'

end TreeMachine
