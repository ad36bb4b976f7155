import SignatureLedger.Text.Bytes

/-!
# Recursions that end

The body of a recursive function is what it does up to its next call of itself, and how it goes on
with the answer. A loop is the case of one call at the end. A function is the recursion of a body if
it does what the body says and every call is made at a smaller state (`Recursion`). Then the calls
need no bound: with any depth that is greater than the size of the state they have all been answered
(`Recursion.run_eq`).
-/

namespace SignatureLedger

/-! ## Smaller lists -/

/-- The rest of a list is shorter. -/
theorem length_lt_cons {α : Type} (a : α) (rest : List α) : rest.length < (a :: rest).length :=
  Nat.lt_succ_self _

/-- So is what is left of the rest. -/
theorem length_drop_lt_cons {α : Type} (a : α) (rest : List α) (k : Nat) :
    (rest.drop k).length < (a :: rest).length := by
  rw [List.length_drop, List.length_cons]
  omega

/-! ## Calls -/

/-- A computation that may call a function and goes on with the answer. -/
inductive Calls (σ ρ α : Type) where
  | done (a : α)
  | call (s : σ) (next : ρ → Calls σ ρ α)

variable {σ ρ α : Type}

namespace Calls

/-- Calls once, and does something to the answer. -/
def again (s : σ) (finish : ρ → α) : Calls σ ρ α := .call s fun r => .done (finish r)

/-- Goes on at another state, as a loop does. -/
def jump (s : σ) : Calls σ ρ ρ := again s id

/-- The outcome, if the calls are answered by `f?`; none if one of them gets no answer. -/
def eval (f? : σ → Option ρ) : Calls σ ρ α → Option α
  | .done a => some a
  | .call s next => (f? s).bind fun r => (next r).eval f?

/-- Calls a body from inside itself, at most `depth` calls deep. -/
def run (body : σ → Calls σ ρ ρ) : Nat → σ → Option ρ
  | 0, _ => none
  | depth + 1, s => (body s).eval (run body depth)

end Calls

/-- The outcome is `a` if the calls are answered by `f`, and every call is at a state smaller
than `n`. -/
inductive Descends (size : σ → Nat) (f : σ → ρ) (n : Nat) : Calls σ ρ α → α → Prop
  | done (a : α) : Descends size f n (.done a) a
  | call {s : σ} {next : ρ → Calls σ ρ α} {a : α} (hlt : size s < n)
      (h : Descends size f n (next (f s)) a) : Descends size f n (.call s next) a

namespace Descends

variable {size : σ → Nat} {f : σ → ρ} {n : Nat}

/-- One call, and something done to the answer. -/
theorem again {s : σ} {finish : ρ → α} (h : size s < n) :
    Descends size f n (.again s finish) (finish (f s)) := .call h (.done _)

/-- A loop descends if its next state is smaller. -/
theorem jump {s : σ} (h : size s < n) : Descends size f n (.jump s) (f s) := .again h

/-- A test makes no call, so that each branch descends for itself. -/
theorem ite {x y : Calls σ ρ α} {a b : α} {c : Prop} [Decidable c]
    (hx : c → Descends size f n x a) (hy : ¬ c → Descends size f n y b) :
    Descends size f n (if c then x else y) (if c then a else b) := by
  split
  · exact hx ‹_›
  · exact hy ‹_›

/-- Where every smaller state is answered as `f` answers it, the outcome is that of `f`. -/
theorem eval {c : Calls σ ρ α} {a : α} {f? : σ → Option ρ} (h : Descends size f n c a)
    (hf : ∀ s, size s < n → f? s = some (f s)) : c.eval f? = some a := by
  induction h with
  | done a => rfl
  | call hlt _ ih =>
    rw [Calls.eval, hf _ hlt, Option.bind_some]
    exact ih

end Descends

/-- `f` does what the body says, and every call that the body makes on the way is at a smaller
state. -/
def Recursion (size : σ → Nat) (body : σ → Calls σ ρ ρ) (f : σ → ρ) : Prop :=
  ∀ s, Descends size f (size s) (body s) (f s)

/-- **A recursion ends by itself.** Calls nested deeper than the size of the state do not occur, so
that a bound above it changes nothing. -/
theorem Recursion.run_eq {size : σ → Nat} {body : σ → Calls σ ρ ρ} {f : σ → ρ}
    (h : Recursion size body f) (depth : Nat) (s : σ) (hs : size s < depth) :
    Calls.run body depth s = some (f s) := by
  induction depth generalizing s with
  | zero => exact absurd hs (Nat.not_lt_zero _)
  | succ depth ih =>
    show (body s).eval (Calls.run body depth) = some (f s)
    exact (h s).eval fun t ht => ih t (Nat.lt_of_lt_of_le ht (Nat.le_of_lt_succ hs))

/-- The body descends, and so it ends: there is a depth at which it has the value of `f`, and a
greater depth does not change it. -/
structure Terminates (size : σ → Nat) (body : σ → Calls σ ρ ρ) (f : σ → ρ) : Prop where
  descends : Recursion size body f
  ends : ∀ depth s, size s < depth → Calls.run body depth s = some (f s)

/-- A recursion terminates. -/
theorem Recursion.terminates {size : σ → Nat} {body : σ → Calls σ ρ ρ} {f : σ → ρ}
    (h : Recursion size body f) : Terminates size body f := ⟨h, h.run_eq⟩

end SignatureLedger
