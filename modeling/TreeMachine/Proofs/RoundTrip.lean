import TreeMachine.Proofs.ConversionRoutes
import TreeMachine.Proofs.Store.Contents

/-!
# Conversions that are undone

An implicit conversion loses nothing: other than widening to floating point, it can be undone by an explicit one, which
gives the value again.

* **`Plan.Route.undone`**: each implicit route has an explicit one back, and the steps there and back give the value
  itself. A struct comes back as an equal one in storage of its own where boxing copies it, and in its own storage where
  it does not.
-/

namespace TreeMachine

open Store Universe Codegen Walk Machine TreeMachine.EStateM

/-! ## The way back -/

namespace Universe

variable {U : Universe} {a b : Ty}

theorem Upcast.convertsExplicitly_back (hU : U.Declared) (h : U.Upcast a b) (hne : a ≠ b)
    (ha : U.isValue a = false) : U.convertsExplicitly b a = true := by
  have hb := h.isValue_target hU hne
  have hassignable := h.assignable hU
  unfold convertsExplicitly
  split
  · rfl
  unfold isValue at ha hb
  cases hsb : U.storage b <;> cases hsa : U.storage a <;>
    simp only [hsa, hsb, Storage.isValue, reduceCtorEq] at ha hb ⊢
  · exact hassignable
  · -- only `object` is above an interface
    cases h with
    | refl => exact absurd rfl hne
    | null => cases hsa
    | object => rfl
    | interface _ h =>
      have hi := isInterface_of_implements h
      rw [isInterface, hsb] at hi
      cases hi
    | base _ h =>
      rw [(hU.bare_of_interface (by simp [isInterface, hsa])).1] at h
      cases h
  · cases h with
    | refl => exact absurd rfl hne
    | null => rfl
    | object => cases hsb
    | interface _ h => simp [h]
    | base _ h =>
      have hi := isInterface_of_class (hU.class_of_lineage h)
      simp [isInterface, hsb] at hi

theorem Declared.int_of_isWidening (hU : U.Declared) (h : U.isWidening a b = true) (hb : b ≠ .float64) :
    a = .int32 ∧ b = .int64 := by
  unfold isWidening at h
  split at h
  · rename_i p q hp hq
    simp only [Bool.and_eq_true, decide_eq_true_eq] at h
    obtain ⟨⟨hpn, hqn⟩, hrank⟩ := h
    have hp' : p ≠ .bool := by rintro rfl; cases hpn
    have hq' : q ≠ .bool := by rintro rfl; cases hqn
    obtain rfl := hU.eq_of_scalar hp hp'
    obtain rfl := hU.eq_of_scalar hq hq'
    cases p <;> cases q <;> simp_all [Primitive.type, Primitive.rank]
  · cases h

end Universe

/-! ## Values that come back -/

/-- A value that was converted and converted back: the value itself, or an equal one in storage of its own where it
was `copied`. -/
def Store.Restored (copied : Bool) (s : Store) (v w : Value) (t : Store) : Prop :=
  s.Expands t ∧ if copied then w.type = v.type ∧ t.equal w v = true ∧ t.Apart w v else w = v

namespace Walk

variable {U : Universe} {v p : Value} {s t : Store} {a : Ty}

theorem toPrimitive_undone (hv : s.isOf U v .int32 = some true) (hc : v.Canonical U (some .int32)) :
    toPrimitive U (toPrimitive U v (some .int64)) (some .int32) = v := by
  obtain ⟨htype, hd⟩ := (isOf_scalar_iff rfl).1 hv
  obtain ⟨type, d⟩ := v
  subst htype
  cases d with
  | int n =>
    have hn : wrap32 n = n := hc n rfl
    simp [toPrimitive, Value.asInt, Value.ofInt64, Value.ofInt32, Datum.bits, primitive?,
      decl, Builtin.scalar, hn]
  | _ => cases hd

theorem unbox_wrap (h : p.type = some a) : unbox (wrap p t).1 a (wrap p t).2 = .ok p (wrap p t).2 := by
  have hpayload : (wrap p t).2.payload? (wrap p t).1 = some p := Array.getElem?_push_size
  unfold unbox
  rw [show (wrap p t).1.isNil = false from rfl, if_neg Bool.false_ne_true]
  rw [bind_of_ok (show (get : Exec Store) (wrap p t).2 = .ok _ _ from rfl)]
  simp only [hpayload, h, if_true]
  rfl

end Walk

namespace Plan

open ConversionStep (actAll actAll_singleton actAll_numericSteps)

variable {U : Universe} {a b : Ty} {steps : List ConversionStep} {v : Value} {s : Store}

theorem Route.make {explicit : Bool} (h : Route U a b explicit steps) (hne : a ≠ b) :
    Plan.make U (some a) (some b) explicit = .ok ⟨some a, some b, steps⟩ := by
  unfold Plan.make
  rw [if_neg fun h => hne (Option.some.inj h)]
  dsimp only
  rw [h.steps?]
  rfl

/-- What a value of the type has to be like to come back: a struct is held at its own type, and is whole. -/
def Returns (U : Universe) (a : Ty) (s : Store) (v : Value) : Prop :=
  s.isOf U v a = some true ∧ v.Canonical U (some a) ∧ (U.isAggregate a = true → v.type = some a ∧ s.Whole v)

theorem Returns.type_eq (h : Returns U a s v) (ha : U.isValue a = true) : v.type = some a := by
  cases hs : U.storage a with
  | scalar => exact ((isOf_scalar_iff (by simp [isScalar, hs])).1 h.1).1
  | aggregate => exact (h.2.2 (by simp [isAggregate, hs])).1
  | reference | interface => simp [isValue, hs, Storage.isValue] at ha

theorem Returns.sited (h : Returns U a s v) (ha : U.isValue a = true) : s.Sited v := by
  cases hs : U.storage a with
  | scalar =>
    have hd := ((isOf_scalar_iff (by simp [isScalar, hs])).1 h.1).2
    refine .leaf fun loc hloc => ?_
    rw [hloc] at hd
    unfold Datum.isOf at hd
    split at hd <;> simp_all
  | aggregate => exact (h.2.2 (by simp [isAggregate, hs])).2.sited
  | reference | interface => simp [isValue, hs, Storage.isValue] at ha

theorem Numbers.symm (h : Numbers U a b) : Numbers U b a := ⟨h.target, h.source, h.target_ne, h.source_ne⟩

theorem restored_unbox_box (h : Returns U a s v) (ha : U.isValue a = true) (copies c : Bool) :
    ∃ w t, (actAll U copies [.box a] v >>= actAll U c [.unbox a]) s = .ok w t ∧
      s.Restored (copies && U.isAggregate a) v w t := by
  have htype := h.type_eq ha
  -- the box takes `p`, and gives it back
  have hboth : ∀ {p t}, ((if copies then Exec.clone v else pure v : Exec Value) s) = .ok p t → p.type = v.type →
      (actAll U copies [.box a] v >>= actAll U c [.unbox a]) s =
        .ok p (wrap p t).2 := by
    intro p t hp hpt
    have hbox : actAll U copies [.box a] v s = .ok (wrap p t).1 (wrap p t).2 := by
      rw [actAll_singleton]
      show ((if copies then Exec.clone v else pure v : Exec Value) >>= fun w => Exec.step (wrap w)) s = _
      rw [bind_of_ok hp]
      rfl
    rw [bind_of_ok hbox, actAll_singleton]
    exact unbox_wrap (hpt.trans htype)
  cases copies with
  | false =>
    refine ⟨v, _, hboth (p := v) (t := s) rfl rfl, .wrap v s, ?_⟩
    rw [Bool.false_and, if_neg Bool.false_ne_true]
  | true =>
    have hsited := h.sited ha
    have hcopied := copied_clone hsited.nests
    have hexpands : s.Expands (wrap (clone v s).1 (clone v s).2).2 :=
      (Store.Expands.of_grows (.clone v s)).trans (.wrap _ _)
    refine ⟨_, _, hboth (Exec.clone_of_nests hsited.nests) hcopied.type_eq, hexpands, ?_⟩
    rw [Bool.true_and]
    split
    · rename_i hstruct
      exact ⟨hcopied.type_eq, (h.2.2 hstruct).2.equal_copy (hcopied.congr rfl rfl) hexpands,
        apart_clone hsited (.wrap _ _)⟩
    · rename_i hscalar
      refine hcopied.eq_of_ne fun loc hloc => hscalar ?_
      have hof := h.1
      unfold isOf at hof
      unfold isValue at ha
      cases hs : U.storage a with
      | aggregate => simp [isAggregate, hs]
      | scalar => simp [hs, hloc] at hof
      | reference | interface => simp [hs, Storage.isValue] at ha

/-- **Each implicit route has an explicit one back**, and the steps of both give the value again. -/
theorem Route.undone (hU : U.Declared) (h : Route U a b false steps) (hne : a ≠ b) (hfloat : b ≠ .float64) :
    ∃ back, Route U b a true back ∧ ∀ v s, Returns U a s v →
      (∀ c, (Walk.convertBetween U v a b false >>= fun w => Walk.convertBetween U w b a true) s =
        (actAll U true steps v >>= actAll U c back) s) ∧
      ∀ copies c, ∃ w t, (actAll U copies steps v >>= actAll U c back) s = .ok w t ∧
        s.Restored (copies && U.isAggregate a) v w t := by
  cases h with
  | enum _ _ h | unbox h | cast _ _ _ h => cases h
  | number hn ha hb hwiden =>
    obtain ⟨rfl, rfl⟩ := hU.int_of_isWidening (hwiden.resolve_left Bool.false_ne_true) hfloat
    refine ⟨_, .number hn.symm hb ha (.inl rfl), fun v s hv => ⟨fun c => ?_, fun copies c => ?_⟩⟩
    · rw [Walk.convertBetween_number hn ha hb hwiden, actAll_numericSteps hne, pure_bind, pure_bind,
        Walk.convertBetween_number hn.symm hb ha (.inl rfl), actAll_numericSteps hne.symm]
    · rw [actAll_numericSteps hne, pure_bind, actAll_numericSteps hne.symm]
      refine ⟨v, s, congrArg (EStateM.Result.ok · s) (Walk.toPrimitive_undone hv.1 hv.2.1), .refl s, ?_⟩
      rw [show U.isAggregate .int32 = false from rfl, Bool.and_false, if_neg Bool.false_ne_true]
  | box hbox =>
    refine ⟨_, .unbox rfl hbox, fun v s hv => ⟨fun c => ?_, restored_unbox_box hv (isValue_of_boxesTo hbox)⟩⟩
    have hunbox : actAll U c [.unbox a] = fun w => Walk.unbox w a :=
      funext fun w => actAll_singleton _
    have hnests := (hv.sited (isValue_of_boxesTo hbox)).nests
    have hact : ConversionStep.act U true (.box a) v s = .ok (Store.box v s).1 (Store.box v s).2 := by
      show (Exec.clone v >>= fun w => Exec.step (Store.wrap w)) s = _
      rw [bind_of_ok (Exec.clone_of_nests hnests)]
      rfl
    rw [Walk.convertBetween_box hbox, actAll_singleton, hunbox, bind_of_ok (Exec.box_of_nests hnests),
      bind_of_ok hact, Walk.convertBetween_unbox hbox]
  | upcast ha hb hup =>
    have hkeep : ∀ {v w : Value} {s : Store} {copies : Bool}, w = v → s.Restored (copies && U.isAggregate a) v w s := by
      intro v w s copies hw
      have hstruct : U.isAggregate a = false := by
        unfold isValue at ha
        cases hs : U.storage a <;> simp_all [isAggregate, Storage.isValue]
      rw [hstruct, Bool.and_false]
      exact ⟨.refl s, by rwa [if_neg Bool.false_ne_true]⟩
    cases hback : U.assignable b a with
    | true =>
      refine ⟨_, .upcast hb ha hback, fun v s hv => ⟨fun c => ?_, fun copies c => ⟨v, s, rfl, hkeep rfl⟩⟩⟩
      rw [Walk.convertBetween_upcast ha hb hup, pure_bind, Walk.convertBetween_upcast hb ha hback]
      rfl
    | false =>
      have hcast := (Universe.Upcast.of_assignable hup).convertsExplicitly_back hU hne ha
      refine ⟨_, .cast hb ha hback rfl hcast, fun v s hv => ⟨fun c => ?_, fun copies c => ⟨v, s, ?_, hkeep rfl⟩⟩⟩
      · rw [Walk.convertBetween_upcast ha hb hup, pure_bind, Walk.convertBetween_cast hb ha hback hcast]
        exact congrFun (actAll_singleton (.cast a)).symm s
      · -- the value was accepted at the type before
        have hof := hv.1
        rw [Store.isOf_reference ha] at hof
        show (actAll U c [.cast a] v) s = _
        rw [actAll_singleton]
        show ((if v.isNil then pure () else s.accept v (some a) (s.isInstance U v (some a)) : Exec Unit) >>=
          fun _ => pure v) s = _
        split at hof
        · rename_i hnil
          rw [if_pos hnil]
          rfl
        · rename_i hnil
          rw [if_neg hnil, hof]
          rfl

/-- **Implicit conversions can be undone**, other than those to floating point. There is an explicit conversion back,
and both together give a value of the source type again: in a walk, where a struct comes back as a copy, and in a frame
that runs through the code of both plans, whatever function it stands in, where a struct comes back as a copy if the
compiler takes it for existing storage, and as itself if nothing else holds it. -/
theorem conversions_undone (hU : U.Declared) (hne : a ≠ b) (hfloat : b ≠ .float64)
    (h : U.convertsImplicitly a b = true) : U.convertsExplicitly b a = true ∧
    (∀ v s, Returns U a s v → ∃ w t,
      (Walk.convert U v (some a) (some b) false >>= fun w => Walk.convert U w (some b) (some a) true) s = .ok w t ∧
        s.Restored (U.isAggregate a) v w t) ∧
    ∃ p q, make U (some a) (some b) false = .ok p ∧ make U (some b) (some a) true = .ok q ∧
      ∀ (cg : Codegen.Context) (ctx : Machine.Context), cg.types = U → ctx.host.types = U →
      ∀ (kind kind' : Kind) (σ σ' σ'' : CodegenState), convert cg kind p σ = .ok () σ' →
        convert cg kind' q σ' = .ok () σ'' → σ.function.chunk.DepthsCover →
      ∀ (base : List StackEntry) (e : StackEntry), entries σ = base ++ [e] → e.type = some a →
      ∀ (f : Frame) (rest : Array Value) (v : Value) (s : Store), Machine.Approaches σ σ'' f rest v → Returns U a s v →
      ∃ k w t, s.Restored (e.addressable && U.isAggregate a) v w t ∧
        ∀ n, run ctx (n + k) f s =
          run ctx n { f with ip := offset σ'', stack := rest.push w } t := by
  obtain ⟨steps, hroute⟩ : ∃ steps, Route U a b false steps := Route.of_implicitly hU hne h
  obtain ⟨back, hback, hundone⟩ := hroute.undone hU hne hfloat
  refine ⟨hback.explicitly hne.symm, fun v s hv => ?_, _, _, hroute.make hne, hback.make hne.symm, ?_⟩
  · obtain ⟨hwalk, hacts⟩ := hundone v s hv
    obtain ⟨w, t, hok, hrestored⟩ := hacts true true
    refine ⟨w, t, ?_, by rwa [Bool.true_and] at hrestored⟩
    simp only [Walk.convert, Option.some.injEq, if_neg hne, if_neg hne.symm]
    rw [hwalk true, hok]
  · rintro cg ctx rfl hctx kind kind' σ σ' σ'' hp hq hcover base e hbase htype f rest v s hf hv
    obtain ⟨e', hthere⟩ := stretch_of_make (hroute.make hne) hctx hbase hp
    obtain ⟨e'', hreturn⟩ := stretch_of_make (hback.make hne.symm) hctx hthere.entries hq
    obtain ⟨k, hturns⟩ := (hthere.trans hreturn).turns _ hf.holds hcover
    obtain ⟨w, t, hok, hrestored⟩ := (hundone v s hv).2 (copies cg.types e) (copies cg.types e')
    have hcopied : (copies cg.types e && cg.types.isAggregate a) =
        (e.addressable && cg.types.isAggregate a) := by
      rw [copies, htype, Option.any_some]
      cases cg.types.isAggregate a <;> simp
    rw [hcopied] at hrestored
    refine ⟨k, w, t, hrestored, fun n => ?_⟩
    have hdepth : rest.size + 1 = base.length + 1 := by rw [hf.depth, hbase]; simp
    have hruns : Machine.Continues
        (fun w => run ctx n { f with ip := offset σ'', stack := rest.push w })
        ((actAll cg.types (copies cg.types e) steps v >>=
          actAll cg.types (copies cg.types e') back) s) (run ctx (n + k) f s) :=
      hturns f rest v n s rfl hf.ip hf.stack hdepth
    rw [hok] at hruns
    generalize run ctx (n + k) f s = r at hruns ⊢
    cases hruns
    rfl

/-! ## A struct in a struct -/

/-- Segments start at a point and carry a note. -/
def segments : Universe := declareAll {} [
  ⟨"Point", .struct, [.field "x" (some .int32)]⟩,
  ⟨"Segment", .struct, [.field "start" (some (.declared 0)), .field "note" (some .object)]⟩]

/-- A segment, with a boxed point for a note. -/
def drawing : Store where
  aggregates := #[⟨some (.declared 0), #[.ofInt32 1]⟩,
    ⟨some (.declared 1), #[⟨some (.declared 0), .aggregate 0⟩, ⟨some .object, .box 0⟩]⟩,
    ⟨some (.declared 0), #[.ofInt32 2]⟩]
  boxes := #[⟨some (.declared 0), .aggregate 2⟩]

def segment : Value := ⟨some (.declared 1), .aggregate 1⟩

theorem whole_segment : drawing.Whole segment := by
  have hnumber : ∀ n, drawing.Whole (.ofInt32 n) := fun n => .leaf (fun _ h => by cases h) fun _ h => by cases h
  have hpoint : ∀ {r : Record} {loc : Loc} {n : Int64}, drawing.aggregates[loc]? = some r → r.fields = #[.ofInt32 n] →
      drawing.Whole ⟨some (.declared 0), .aggregate loc⟩ := by
    intro r loc n hr hfields
    refine .struct rfl hr fun f hf => ?_
    rw [hfields, Array.mem_singleton] at hf
    exact hf ▸ hnumber n
  have hfields : drawing.aggregates[1]? = some ⟨some (.declared 1), #[⟨some (.declared 0), .aggregate 0⟩,
      ⟨some .object, .box 0⟩]⟩ := rfl
  refine .struct rfl hfields fun f hf => ?_
  simp only [List.mem_toArray, List.mem_cons, List.not_mem_nil, or_false] at hf
  rcases hf with rfl | rfl
  · exact hpoint (n := 1) rfl rfl
  · exact .box rfl rfl (hpoint (n := 2) rfl rfl)

theorem returns_segment : Returns segments (.declared 1) drawing segment :=
  ⟨by decide +kernel, (fun _ h => by cases h), fun _ => ⟨rfl, whole_segment⟩⟩

/-- A function under construction after it was given the code of a plan. -/
def withCode (p : Plan) (σ : CodegenState) : CodegenState :=
  match convert { types := segments, captures := {}, options := {} } .convert p σ with
  | .ok _ σ | .error _ σ => σ

theorem convert_withCode {p : Plan} {σ : CodegenState}
    (h : (match convert { types := segments, captures := {}, options := {} } .convert p σ with
      | .ok _ _ => true
      | .error _ _ => false) = true) :
    convert { types := segments, captures := {}, options := {} } .convert p σ = .ok () (withCode p σ) := by
  unfold withCode
  split at h
  · rename_i heq
    rw [heq]
  · cases h

def segmentBoxing : Plan := ⟨some (.declared 1), some .object, [.box (.declared 1)]⟩

def segmentUnboxing : Plan := ⟨some .object, some (.declared 1), [.unbox (.declared 1)]⟩

def passing : CodegenState where
  function := { name := "passing", stack := { entries := #[aliased (.declared 1)], max := 1 } }

def passed : CodegenState := withCode segmentUnboxing (withCode segmentBoxing passing)

def passingFrame : Frame where
  closure := { image := #[], function := { name := "passing", chunk := passed.function.chunk } }
  stack := #[segment]

def passingMachine : Machine.Context := ⟨{ types := segments }, fun _ _ => Exec.corrupt, fun _ _ => Exec.corrupt⟩

/-- A segment comes back from its box as an equal one, in storage of its own. -/
theorem segment_returns :
    segments.convertsExplicitly .object (.declared 1) = true ∧
    (∃ w t, (convert segments segment (some (.declared 1)) (some .object) false >>= fun w =>
        convert segments w (some .object) (some (.declared 1)) true) drawing = .ok w t ∧
      drawing.Restored true segment w t) ∧
    ∃ k w t, drawing.Restored true segment w t ∧
      ∀ n, run passingMachine (n + k) passingFrame drawing =
        run passingMachine n { passingFrame with ip := offset passed, stack := #[].push w } t := by
  obtain ⟨hexplicit, hwalk, p, q, hp, hq, hmachine⟩ := conversions_undone (U := segments) (a := .declared 1)
    (b := .object) (Universe.Declared.empty.declareAll _) (by decide) (by decide) (by decide +kernel)
  have hstruct : segments.isAggregate (.declared 1) = true := by decide +kernel
  obtain rfl : segmentBoxing = p := by
    have hboxing : make segments (some (.declared 1)) (some .object) false = .ok segmentBoxing := by decide +kernel
    exact Except.ok.inj (hboxing.symm.trans hp)
  obtain rfl : segmentUnboxing = q := by
    have hunboxing : make segments (some .object) (some (.declared 1)) true = .ok segmentUnboxing := by decide +kernel
    exact Except.ok.inj (hunboxing.symm.trans hq)
  refine ⟨hexplicit, hstruct ▸ hwalk segment drawing returns_segment, ?_⟩
  have hruns := hmachine _ passingMachine rfl rfl .convert .convert passing _ passed
    (convert_withCode (by decide +kernel)) (convert_withCode (by decide +kernel)) (fun ds hds => nomatch hds) [] _ rfl
    rfl passingFrame #[] segment drawing
    ⟨⟨fun _ _ _ => rfl, .refl _, fun _ _ h => h⟩, rfl, rfl, rfl⟩ returns_segment
  rwa [hstruct] at hruns

def mislabeled : Value := { segment with type := some (.declared 0) }

/-- **An owned struct stays where it is.** Boxed and unboxed by the planned instructions, a struct comes back in its own
storage. And a struct that is held at another type than its own is boxed, but not found in the box. -/
theorem owned_struct_kept :
    segments.Declared ∧ segments.convertsImplicitly (.declared 1) .object = true ∧
    make segments (some (.declared 1)) (some .object) false = .ok segmentBoxing ∧
    make segments (some .object) (some (.declared 1)) true = .ok segmentUnboxing ∧
    drawing.isOf segments segment (.declared 1) = some true ∧
    (execute passingMachine passingFrame .box >>= fun f =>
      execute passingMachine f (.unbox (some (.declared 1)))) drawing =
        .ok passingFrame (wrap segment drawing).2 ∧
    ¬(wrap segment drawing).2.Apart segment segment ∧
    drawing.isOf segments mislabeled (.declared 1) = some true ∧
    (convert segments mislabeled (some (.declared 1)) (some .object) false >>= fun w =>
      convert segments w (some .object) (some (.declared 1)) true) drawing =
        .error (.error (.plain (.notBoxed (some (.declared 0)) (some (.declared 1)))))
          (box mislabeled drawing).2 := by
  have hbox : segments.boxesTo (.declared 1) .object = true := by decide +kernel
  refine ⟨Universe.Declared.empty.declareAll _, by decide +kernel, by decide +kernel, by decide +kernel,
    by decide +kernel, rfl, fun hapart => ?_, by decide +kernel, ?_⟩
  · exact hapart 1 ⟨segment, .self _, rfl⟩ ⟨segment, .self _, rfl⟩
  · show (convertBetween segments mislabeled (.declared 1) .object false >>= fun w =>
      convertBetween segments w .object (.declared 1) true) drawing = _
    simp only [convertBetween_box hbox, convertBetween_unbox hbox]
    rfl

end Plan

end TreeMachine
