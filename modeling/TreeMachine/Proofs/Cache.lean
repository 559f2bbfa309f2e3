import Mathlib.Data.List.Induction
import TreeMachine.Cache
import TreeMachine.Proofs.Codegen.WellFormed

/-!
# What the cache answers

A cache answers a request with the outcome of the first request since the last purge that has the same
fingerprint and whose outcome is kept; there it agrees with compiling anew. It does so for a request itself
exactly if that earlier request compiles alike. A fingerprint tells which nodes a tree has and which variables
they mention, but not whether two of its nodes are one node, and the capture pass does look at that: a block
that stands at two places of a tree is declined if a closure inside it captures one of its variables. So
the cache gives an artifact for a tree that is declined, or declines one that compiles, depending on which
of the two is asked for first (`shared_after_apart`).
-/

open Option List

namespace TreeMachine

/-- A tree to compile: the types it is built over, the store of its constants, and the shape it is called with. -/
structure CacheRequest where
  types : Universe
  store : Store
  root : Lambda
  shape : Shape

namespace CacheRequest

def key (r : CacheRequest) : Fingerprint := Fingerprint.ofTree r.store r.root.toExpr r.shape

def direct (options : Options) (r : CacheRequest) : Except CompileFailure Artifact :=
  Compiler.answer r.types r.store options (some r.root) r.shape

def Settles (options : Options) (r : CacheRequest) : Prop :=
  ∀ e, r.direct options = .error e → e.isUnsupported = true

instance (options : Options) (r : CacheRequest) : Decidable (r.Settles options) :=
  match h : r.direct options with
  | .ok _ => isTrue fun _ he => by rw [h] at he; cases he
  | .error e => decidable_of_iff (e.isUnsupported = true)
      ⟨fun hu _ he => by rw [h] at he; cases he; exact hu, fun hs => hs e h⟩

end CacheRequest

inductive CacheEvent where
  | compile (r : CacheRequest)
  | purge

namespace Cache

variable {options : Options}

def outcome (c : Cache) (r : CacheRequest) : Except CompileFailure Artifact :=
  (c.compile r.types r.store r.root r.shape).1.map (·.2)

def step (c : Cache) : CacheEvent → Cache
  | .compile r => (c.compile r.types r.store r.root r.shape).2
  | .purge => c.purge

def after (options : Options) (past : List CacheEvent) : Cache := past.foldl step { options := options }

/-- The requests of a history since the last purge, the earliest first. -/
def recent (past : List CacheEvent) : List CacheRequest :=
  past.foldl (fun rs e => match e with | .compile r => rs ++ [r] | .purge => []) []

/-- The request whose outcome is kept for those that have the fingerprint of `r`: the first one that was settled. -/
def holder? (options : Options) (rs : List CacheRequest) (key : Fingerprint) : Option CacheRequest :=
  rs.find? fun q => decide (q.key = key ∧ q.Settles options)

/-! ## One request -/

/-- The outcomes in the cache are those of compiling the first settled request of each fingerprint. -/
structure Reflects (c : Cache) (options : Options) (rs : List CacheRequest) : Prop where
  options_eq : c.options = options
  entry : ∀ key, (c.entries.lookup key).map (Except.map (·.2)) =
    (holder? options rs key).map (CacheRequest.direct options)

variable {c : Cache} {rs : List CacheRequest} {r : CacheRequest}

theorem compile_of_hit {e : CacheEntry} (h : c.entries.lookup r.key = some e) :
    c.compile r.types r.store r.root r.shape = (e, { c with hits := c.hits + 1 }) := by
  unfold compile
  rw [CacheRequest.key] at h
  simp only [h]

theorem compile_of_miss (ho : c.options = options) (h : c.entries.lookup r.key = none) :
    ∃ e c', c.compile r.types r.store r.root r.shape = (e, c') ∧ e.map (·.2) = r.direct options ∧
      c'.options = options ∧ c'.entries = if r.Settles options then (r.key, e) :: c.entries else c.entries := by
  unfold compile
  rw [CacheRequest.key] at h ⊢
  simp only [h, ho]
  cases hd : Compiler.answer r.types r.store options (some r.root) r.shape with
  | ok a =>
    have hsettles : r.Settles options := fun e he => by rw [CacheRequest.direct, hd] at he; cases he
    exact ⟨_, _, rfl, hd.symm, rfl, (if_pos hsettles).symm⟩
  | error e =>
    have hsettles : r.Settles options ↔ e.isUnsupported = true :=
      ⟨fun hs => hs e hd, fun hu e' he => by rw [CacheRequest.direct, hd] at he; cases he; exact hu⟩
    refine ⟨_, _, rfl, hd.symm, rfl, ?_⟩
    by_cases hu : e.isUnsupported = true
    · rw [if_pos (show isKept (.error e) = true from hu), if_pos (hsettles.2 hu)]
    · rw [if_neg (show ¬isKept (.error e) = true from hu), if_neg fun hs => hu (hsettles.1 hs)]

theorem Reflects.outcome_eq (h : c.Reflects options rs) (r : CacheRequest) :
    c.outcome r = ((holder? options rs r.key).getD r).direct options := by
  have hentry := h.entry r.key
  unfold outcome
  cases hlookup : c.entries.lookup r.key with
  | some e =>
    rw [hlookup] at hentry
    obtain ⟨q, hq, hqe⟩ := map_eq_some_iff.1 hentry.symm
    rw [compile_of_hit hlookup, hq]
    exact hqe.symm
  | none =>
    rw [hlookup] at hentry
    have hnone : holder? options rs r.key = none := map_eq_none_iff.1 hentry.symm
    obtain ⟨e, c', hcompile, he, -⟩ := compile_of_miss h.options_eq hlookup
    rw [hcompile, hnone]
    exact he

theorem holder?_append (rs : List CacheRequest) (r : CacheRequest) (key : Fingerprint) :
    holder? options (rs ++ [r]) key =
      (holder? options rs key).or (if r.key = key ∧ r.Settles options then some r else none) := by
  unfold holder?
  rw [find?_append]
  congr 1
  by_cases h : r.key = key ∧ r.Settles options
  · rw [if_pos h, find?_cons_of_pos (by simpa using h)]
  · rw [if_neg h, find?_cons_of_neg (by simpa using h), find?_nil]

theorem Reflects.compile (h : c.Reflects options rs) (r : CacheRequest) :
    (c.step (.compile r)).Reflects options (rs ++ [r]) := by
  have hentry := h.entry r.key
  rw [step]
  cases hlookup : c.entries.lookup r.key with
  | some e =>
    -- this fingerprint keeps its holder, and the request is no other one's
    rw [hlookup] at hentry
    obtain ⟨q, hq, -⟩ := map_eq_some_iff.1 hentry.symm
    rw [compile_of_hit hlookup]
    refine ⟨h.options_eq, fun key => ?_⟩
    rw [holder?_append]
    by_cases hkey : r.key = key
    · rw [← hkey, hq, some_or, ← hq]
      exact h.entry r.key
    · rw [if_neg fun hr => hkey hr.1, or_none]
      exact h.entry key
  | none =>
    rw [hlookup] at hentry
    have hnone : holder? options rs r.key = none := map_eq_none_iff.1 hentry.symm
    obtain ⟨e, c', hcompile, he, hoptions, hentries⟩ := compile_of_miss h.options_eq hlookup
    rw [hcompile]
    refine ⟨hoptions, fun key => ?_⟩
    rw [holder?_append, hentries]
    by_cases hsettles : r.Settles options
    · rw [if_pos hsettles]
      by_cases hkey : r.key = key
      · rw [← hkey, hnone, none_or, if_pos ⟨rfl, hsettles⟩, lookup_cons_self, map_some,
          he, map_some]
      · have hne : (key == r.key) = false := beq_false_of_ne fun he => hkey he.symm
        rw [if_neg fun hr => hkey hr.1, or_none, lookup_cons, hne]
        exact h.entry key
    · rw [if_neg hsettles, if_neg fun hr => hsettles hr.2, or_none]
      exact h.entry key

theorem Reflects.purge (h : c.Reflects options rs) : (c.step .purge).Reflects options [] :=
  ⟨h.options_eq, fun _ => rfl⟩

/-! ## Histories -/

theorem reflects_after (past : List CacheEvent) : (after options past).Reflects options (recent past) := by
  induction past using reverseRecOn with
  | nil => exact ⟨rfl, fun _ => rfl⟩
  | append_singleton past e ih =>
    rw [after, recent, foldl_append, foldl_append]
    cases e with
    | compile r => exact ih.compile r
    | purge => exact ih.purge

/-- **What the cache answers** after any history: the outcome of compiling the first settled request since the
last purge that has the same fingerprint, and the request itself if there is none. -/
theorem outcome_after (options : Options) (past : List CacheEvent) (r : CacheRequest) :
    (after options past).outcome r =
      ((holder? options (recent past) r.key).getD r).direct options :=
  (reflects_after past).outcome_eq r

end Cache

/-! ## A block at two places -/

namespace Compiler

/-- A block that reads its variable through a closure. The closure has identity `id`, the block the next one. -/
def readThrough (id : Nat) : Expr :=
  let p : Var := ⟨1, "p", .int32⟩
  .block (id + 1) [p] [.apply (.lambda id "" [] (.var p) (some .int32) (.declared 1)) [] (some .int32)]

def twice (first second : Nat) : Lambda :=
  { id := 0, name := "twice", params := [], body := .block 2 [] [readThrough first, readThrough second]
    result := some .int32, type := .declared 1 }

/-- The request for a function of two blocks; they are one node if the numbers are the same. -/
def twiceRequest (first second : Nat) : CacheRequest :=
  ⟨counterTypes, {}, twice first second, ⟨[], some .int32⟩⟩

theorem key_twice (first second : Nat) : (twiceRequest first second).key = (twiceRequest 3 3).key := rfl

/-- **Two blocks apart and one block at two places** share a fingerprint. The function of the first compiles, that
of the second is declined; but a cache gives each the outcome of the other, if it was asked for the other
before. -/
theorem shared_after_apart : counterTypes.Declared ∧
    (twice 3 5).toExpr.Checked counterTypes ∧ (twice 3 3).toExpr.Checked counterTypes ∧
    ∃ a e, (twiceRequest 3 5).direct {} = .ok a ∧ (twiceRequest 3 3).direct {} = .error e ∧
      e.isUnsupported = true ∧
      (Cache.after {} [.compile (twiceRequest 3 5)]).outcome (twiceRequest 3 3) = .ok a ∧
      (Cache.after {} [.compile (twiceRequest 3 3)]).outcome (twiceRequest 3 5) = .error e := by
  refine ⟨counterTypes_declared, Expr.checked_of_within 6 (by decide +kernel), Expr.checked_of_within 6
    (by decide +kernel), ?_⟩
  have hapart : ((twiceRequest 3 5).direct {}).toOption.map (fun _ => ()) = some () := by decide +kernel
  have hshared : ((twiceRequest 3 3).direct {}).map (fun _ => ()) =
      .error (.error (.unsupported .lambda (.notCapturable "p"))) := by decide +kernel
  obtain ⟨a, ha, -⟩ := Except.exists_ok_of_map hapart
  cases he : (twiceRequest 3 3).direct {} with
  | ok _ => rw [he] at hshared; cases hshared
  | error e =>
    rw [he] at hshared
    have hunsupported : e.isUnsupported = true := by cases hshared; rfl
    refine ⟨a, e, ha, rfl, hunsupported, ?_, ?_⟩
    · have hsettles : (twiceRequest 3 5).Settles {} := fun _ h => by rw [ha] at h; cases h
      have hholder : Cache.holder? {} [twiceRequest 3 5] (twiceRequest 3 3).key = some (twiceRequest 3 5) :=
        find?_cons_of_pos (by simpa using ⟨key_twice 3 5, hsettles⟩)
      rw [(Cache.reflects_after _).outcome_eq]
      show ((Cache.holder? {} [twiceRequest 3 5] _).getD _).direct {} = _
      rw [hholder]
      exact ha
    · have hsettles : (twiceRequest 3 3).Settles {} := fun e' h => by rw [he] at h; cases h; exact hunsupported
      have hholder : Cache.holder? {} [twiceRequest 3 3] (twiceRequest 3 5).key = some (twiceRequest 3 3) :=
        find?_cons_of_pos (by simpa using ⟨(key_twice 3 5).symm, hsettles⟩)
      rw [(Cache.reflects_after _).outcome_eq]
      show ((Cache.holder? {} [twiceRequest 3 3] _).getD _).direct {} = _
      rw [hholder]
      exact he

end Compiler

end TreeMachine
