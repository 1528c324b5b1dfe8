import Mathlib.Data.List.Forall2
import CounterRng.Proofs.Simulation

/-!
# Session — engines, their copies and their children, asked in any order

A session holds a list of engines.  A request goes to one of them by its number; copies and derived
children join the list behind the others and can be asked, copied and derived from in turn, so that a run
of requests grows a whole tree of engines.  Replies name no engine, only what it answered and recorded.

* `Request.serve` — one request to one engine;
* `Session.step` — one request in a session, `run Session.step` for a list of them;
* `lockstep_step` — sessions of engines that simulate each other cannot be told apart;
* `length_log_run` — a session records each derivation once if its engines do.
-/

namespace CounterRng
namespace Session

universe u v e

/-! ## Requests -/

inductive Request (w : Width) where
  | reset
  | reseed (x : Word w)
  | seedValue
  | draw (call : RandomSource.Call)
  | copy
  | derive (key : Word w)
  | deriveVia (D : Digest) (key : Word w)

/-- What is answered; draws that may fail would do so with an error of type `ε`. -/
inductive Reply (w : Width) (ε : Type e) where
  | done
  | seed (x : Word w)
  | drawn (answer : RandomSource.Answer w ε)
  | copied
  | derived
  | noEngine

/-- How many derivations a reply reports. -/
def Reply.derivations {w : Width} {ε : Type e} : Reply w ε → Nat
  | .derived => 1
  | _ => 0

/-- What a request does to the engine it goes to, and the engines that it makes. -/
structure Effect (σ : Type u) (w : Width) (ε : Type e) where
  reply : Logged (Reply w ε)
  state : σ
  made : List σ := []

variable {ε : Type e} {w : Width}

def Request.serve {σ : Type u} [Engine σ w] : Request w → σ → Effect σ w ε
  | .reset, s => { reply := ⟨.done, []⟩, state := Generator.reset s }
  | .reseed x, s => { reply := ⟨.done, []⟩, state := Generator.reseed s x }
  | .seedValue, s => { reply := ⟨.seed (Generator.seedValue s), []⟩, state := s }
  | .draw call, s => { reply := ⟨.drawn (call.apply s).1, []⟩, state := (call.apply (ε := ε) s).2 }
  | .copy, s => { reply := ⟨.copied, []⟩, state := s, made := [s] }
  | .derive key, s =>
      let child := Engine.derive s key
      { reply := ⟨.derived, child.log⟩, state := s, made := [child.value] }
  | .deriveVia D key, s =>
      let child := Derivation.viaDigest D s key
      { reply := ⟨.derived, child.log⟩, state := s, made := [child.value] }

/-- Serves a request to the engine of a number. -/
def step {σ : Type u} [Engine σ w] (input : Nat × Request w) (engines : List σ) :
    Logged (Reply w ε) × List σ :=
  match engines[input.1]? with
  | none => (⟨.noEngine, []⟩, engines)
  | some s =>
      let effect := input.2.serve s
      (effect.reply, engines.set input.1 effect.state ++ effect.made)

/-! ## Sessions of engines that simulate each other -/

section Simulated

variable {σ : Type u} {τ : Type v} [Engine σ w] [Engine τ w] {R : σ → τ → Prop}

theorem rel_getElem? {α : Type u} {β : Type v} {P : α → β → Prop} {xs : List α} {ys : List β}
    (h : List.Forall₂ P xs ys) (i : Nat) : Option.Rel P xs[i]? ys[i]? := by
  induction h generalizing i with
  | nil =>
      exact .none
  | cons hhead _ ih =>
      cases i with
      | zero =>
          exact .some hhead
      | succ i =>
          simpa using ih i

theorem forall₂_set {α : Type u} {β : Type v} {P : α → β → Prop} {xs : List α} {ys : List β}
    (h : List.Forall₂ P xs ys) (i : Nat) {x : α} {y : β} (hxy : P x y) :
    List.Forall₂ P (xs.set i x) (ys.set i y) := by
  induction h generalizing i with
  | nil =>
      exact .nil
  | cons hhead hrest ih =>
      cases i with
      | zero =>
          exact .cons hxy hrest
      | succ i =>
          exact .cons hhead (ih i)

/-- One request to related engines: one reply with the same records, and related engines after it. -/
theorem serve_related (h : Engine.Simulation R) {s : σ} {t : τ} (hst : R s t)
    (request : Request w) :
    (request.serve s : Effect σ w ε).reply = (request.serve t).reply ∧
      R (request.serve (ε := ε) s).state (request.serve (ε := ε) t).state ∧
      List.Forall₂ R (request.serve (ε := ε) s).made (request.serve (ε := ε) t).made := by
  cases request with
  | reset =>
      exact ⟨rfl, h.reset hst, .nil⟩
  | reseed x =>
      exact ⟨rfl, h.reseed x hst, .nil⟩
  | seedValue =>
      refine ⟨?_, hst, .nil⟩
      simp only [Request.serve, h.seedValue hst]
  | draw call =>
      rcases h.call (ε := ε) hst call with ⟨hanswer, hnext⟩
      refine ⟨?_, hnext, .nil⟩
      simp only [Request.serve, hanswer]
  | copy =>
      exact ⟨rfl, hst, .cons hst .nil⟩
  | derive key =>
      refine ⟨?_, hst, .cons (h.child key hst) .nil⟩
      simp only [Request.serve, h.log key hst]
  | deriveVia D key =>
      rcases h.viaDigest hst D key with ⟨hlog, hchild⟩
      refine ⟨?_, hst, .cons hchild .nil⟩
      simp only [Request.serve, hlog]

theorem lockstep_step (h : Engine.Simulation R) :
    Lockstep (step (σ := σ) (w := w) (ε := ε)) (step (σ := τ)) (List.Forall₂ R) := by
  have hstep : ∀ {xs : List σ} {ys : List τ} (input : Nat × Request w), List.Forall₂ R xs ys →
      (step (ε := ε) input xs).1 = (step input ys).1 ∧
        List.Forall₂ R (step (ε := ε) input xs).2 (step (ε := ε) input ys).2 := by
    rintro xs ys ⟨i, request⟩ hall
    have hrel := rel_getElem? hall i
    -- Both sessions have an engine of this number, or neither has.
    simp only [step]
    generalize xs[i]? = x, ys[i]? = y at hrel
    cases hrel with
    | none =>
        exact ⟨rfl, hall⟩
    | some hst =>
        rcases serve_related (ε := ε) h hst request with ⟨hreply, hstate, hmade⟩
        exact ⟨hreply, List.rel_append (forall₂_set hall i hstate) hmade⟩
  constructor
  · intro xs ys input hall
    exact (hstep input hall).1
  · intro xs ys input hall
    exact (hstep input hall).2

end Simulated

/-! ## Records -/

/-- Every derivation that engines of a type make themselves is recorded once. -/
def RecordsOnce (σ : Type u) [Engine σ w] : Prop :=
  ∀ (s : σ) (key : Word w), (Engine.derive s key).log.length = 1

variable {σ : Type u} [Engine σ w]

theorem length_log_step (h : RecordsOnce σ) (input : Nat × Request w) (engines : List σ) :
    (step (ε := ε) input engines).1.log.length =
      (step (ε := ε) input engines).1.value.derivations := by
  rcases input with ⟨i, request⟩
  cases hs : engines[i]? with
  | none =>
      simp only [step, hs]
      rfl
  | some s =>
      simp only [step, hs]
      cases request with
      | derive key =>
          exact h s key
      | _ =>
          rfl

theorem length_log_run (h : RecordsOnce σ) (requests : List (Nat × Request w)) :
    ∀ (engines : List σ), ∀ reply ∈ (run (step (ε := ε)) requests engines).1,
      reply.log.length = reply.value.derivations := by
  -- The list of engines grows on the way, so it is arbitrary in the induction.
  induction requests with
  | nil =>
      intro engines reply hmem
      cases hmem
  | cons input rest ih =>
      intro engines reply hmem
      rcases List.mem_cons.1 hmem with rfl | hrest
      · exact length_log_step h input engines
      · exact ih _ reply hrest

end Session
end CounterRng
