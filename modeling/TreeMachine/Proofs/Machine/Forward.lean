import TreeMachine.Proofs.Host.Discreet
import TreeMachine.Proofs.Machine.Agreement

/-!
# Control moves forward

Distances of jumps are counted from the end of the jump and are never negative. So whatever the bytes of a function are,
no instruction leads back: each one leaves the frame at a greater offset of the same function
(`Machine.ip_lt_of_advance`).
-/

namespace TreeMachine

open Store

/-! ## Reading operands -/

namespace Fetch

variable {α β : Type} {Q : Nat → α → Prop} {R : Nat → β → Prop} {x : Fetch α}

/-- Reading does not go back, and gives something that is as `Q` says at the offset where it ends. -/
def Forward (x : Fetch α) (Q : Nat → α → Prop) : Prop := ∀ o a o', x o = .ok (a, o') → o ≤ o' ∧ Q o' a

theorem Forward.pure {a : α} (h : ∀ o, Q o a) : Forward (pure a) Q := by
  intro o a' o' heq
  cases heq
  exact ⟨Nat.le_refl o, h o⟩

theorem Forward.throw (e : FetchFault) : Forward (throw e : Fetch α) Q := nofun

theorem Forward.imp {S : Nat → α → Prop} (hx : Forward x Q) (h : ∀ o a, Q o a → S o a) :
    Forward x S := fun o a o' heq => ⟨(hx o a o' heq).1, h o' a (hx o a o' heq).2⟩

theorem Forward.bind {f : α → Fetch β} (hx : Forward x Q) (hf : ∀ a, Forward (f a) R) : Forward (x >>= f) R := by
  intro o b o' heq
  obtain ⟨⟨a, o₁⟩, ha, hb⟩ := Except.bind_eq_ok.1 heq
  have hle := (hx o a o₁ ha).1
  have hend := hf a o₁ b o' hb
  exact ⟨Nat.le_trans hle hend.1, hend.2⟩

theorem Forward.map {f : α → β} (hx : Forward x fun o a => R o (f a)) : Forward (f <$> x) R := by
  intro o b o' heq
  obtain ⟨⟨a, o₁⟩, ha, hb⟩ := Except.bind_eq_ok.1 heq
  obtain ⟨rfl, rfl⟩ := Prod.mk.inj (Except.ok.inj hb)
  exact hx o a o₁ ha

theorem Forward.seq {γ : Type} {S : Nat → γ → Prop} {y : Fetch β} {f : α → β → γ} (hx : Forward x Q)
    (hy : Forward y fun o b => ∀ a, S o (f a b)) : Forward (f <$> x <*> y) S := by
  show Forward ((f <$> x) >>= fun g => g <$> y) S
  intro o c o' heq
  obtain ⟨⟨g, o₁⟩, hg, hc⟩ := Except.bind_eq_ok.1 heq
  obtain ⟨⟨a, o₂⟩, ha, hg⟩ := Except.bind_eq_ok.1 hg
  obtain ⟨rfl, rfl⟩ := Prod.mk.inj (Except.ok.inj hg)
  have hend := Forward.map (hy.imp fun o b h => h a) o₂ c o' hc
  exact ⟨Nat.le_trans (hx o a o₂ ha).1 hend.1, hend.2⟩

end Fetch

namespace Instruction

open Fetch

end Instruction

/-! ## Executing instructions -/

namespace Instruction

variable {D : Delegate → Delegate → Prop} {E : Prop} {enter enter' : Closure → List Value → Exec Value}

theorem fits_alike (henter : (alike D E).Enters enter enter') (f : Frame) (i : Instruction) :
    i.Fits (alike D E) () enter enter' f := by
  cases i with
  | push => trivial
  | loadFree => exact fun _ _ => trivial
  | callDynamic => exact False.elim
  | ret => exact id
  | invoke => exact ⟨henter, False.elim⟩
  | _ => trivial

theorem beside_self (henter : (alike D E).Enters enter enter') (f : Frame)
    (hclosure : ∀ k, Exec.Matched D E (Machine.makeClosure f k) (Machine.makeClosure f k))
    (i : Instruction) : i.Beside (alike D E) () enter enter' f f i := by
  cases i with
  | loadLocal => exact .loadLocal rfl fun _ _ => trivial
  | storeLocal => exact .storeLocal Iff.rfl
  | makeCell => exact .makeCell rfl fun _ _ => trivial
  | loadCell => exact .loadCell rfl
  | storeCell => exact .storeCell rfl
  | closure k => exact .closure (hclosure k)
  | _ => exact .same rfl (fits_alike henter f _)

end Instruction

/-- The execution goes on forever only where a struct lies inside itself. -/
def Exec.Finishes {α : Type} (x : Exec α) : Prop := ∀ s s', x s = .error .endless s' → s'.Loops

/-- So do the routines of a host, and delegates that are called through it. -/
structure Host.Finishes (H : Host) (call : Caller) : Prop where
  routines : ∀ r ∈ H.routines, ∀ self args, (r H.types call self args).Finishes
  call : ∀ d args, (call d args).Finishes

def Exec.Gives {α : Type} (x : Exec α) (P : α → Prop) : Prop := ∀ s a s', x s = .ok a s' → P a

namespace Machine

open Exec

variable {f g : Frame} {ctx : Context} {b : UInt8}

theorem agrees_self {α : Type} {E : Prop} {w : Unit} (x : Exec α) (h : E → x.Finishes) :
    (alike Eq E).Agrees w (fun _ _ => True) x x := by
  intro w' _ s t hst
  obtain rfl : t = s := hst.eq
  cases hx : x t with
  | ok a t' => exact .ok ((alike Eq E).refl _) (.refl (fun _ => rfl) t') ⟨rfl, trivial⟩
  | error e t' =>
    exact .error ((alike Eq E).refl _) (.refl (fun _ => rfl) t') False.elim fun hE he => h hE _ _ (he ▸ hx)

theorem enters_self {E : Prop} (enter : Closure → List Value → Exec Value) (h : E → ∀ c args, (enter c args).Finishes) :
    (alike Eq E).Enters enter enter := by
  refine ⟨fun hd => .inl hd.symm, fun hd _ => ?_⟩
  cases hd
  exact agrees_self _ fun hE => h hE _ _

theorem context_self {E : Prop} (h : E → ctx.host.Finishes ctx.call) : ctx.Agrees (alike Eq E) ctx.call := by
  refine ⟨fun r hr _ self args _ _ => agrees_self _ fun hE => (h hE).routines r hr self args,
    fun _ d d' args hd _ => ?_⟩
  cases hd
  exact agrees_self _ fun hE => (h hE).call d args

theorem gives_execute (ctx : Context) (f : Frame) (i : Instruction) :
    Gives (execute ctx f i) fun g => g.closure = f.closure ∧ i.Leads f.ip g.ip := by
  intro s g s' heq
  have hctx : ctx.Agrees (alike Eq) ctx.call := context_self False.elim
  have hbeside := Instruction.beside_self (enters_self ctx.enter False.elim) f (fun _ => agrees_self _ False.elim) i
  have hlevel : Frame.Level (alike Eq) () f f (0 + i.effect.pop) f f :=
    ⟨⟨f.stack⟩, fun _ _ => trivial, False.elim⟩
  have hends := relates_execute hctx rfl hlevel hbeside ((alike Eq).refl ()) (.refl (fun _ => rfl) s)
  rw [heq] at hends
  cases hends with
  | ok _ _ hafter =>
    have hstays : ∀ {ip d : Nat} {locals : Array Value},
        Frame.Level (alike Eq) () { f with ip, locals } { f with ip, locals } d g g →
          g.closure = f.closure ∧ g.ip = ip := by
      rintro ip d locals ⟨⟨stack⟩, -, -⟩
      exact ⟨rfl, rfl⟩
    cases i with
    | storeLocal =>
      obtain ⟨v, -, hstored⟩ := hafter
      exact hstays hstored.level
    | makeCell =>
      obtain ⟨v, hstored⟩ := hafter
      exact hstays hstored.level
    | jumpIfFalse =>
      rcases hafter with hafter | hafter
      · exact (hstays hafter).imp id .inl
      · exact (hstays hafter).imp id .inr
    | _ => exact hstays hafter

theorem advance_of_fetch {i : Instruction} {ip : Nat}
    (hfetch : Instruction.fetch f.closure.function.chunk f.ip b = .ok (i, ip)) (hret : i.isReturn = false) :
    advance ctx f b = execute ctx { f with ip := ip } i >>= fun g => pure (.next g) := by
  unfold advance
  rw [hfetch]
  cases i <;> first | rfl | cases hret

end Machine

end TreeMachine
