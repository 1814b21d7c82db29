import Mathlib.Logic.Basic
import Mathlib.Data.Nat.Notation

/-!
# Programs over a signature of calls

A program is the tree of calls an asynchronous function makes on its
environment.  Every call may come back with a value or with an exception, and
the continuation sees which, so that exception handlers are ordinary
definitions on trees.

The same tree is later executed in three ways: alone against a state
(`Effects.Sequential`), interleaved with other programs
(`Effects.Interleaving`), and after replacing every call by a program over a
finer signature (`Program.interp`).
-/

namespace Effects

/-- The calls a program may make, with the type of the value each returns. -/
structure Signature where
  Op : Type
  Res : Op → Type

variable {S T : Signature} {ε α β γ : Type}

/-- A program that returns an `α`, raises an `ε`, or makes a call and goes on
with its outcome. -/
inductive Program (S : Signature) (ε α : Type) where
  | ret (a : α)
  | raise (e : ε)
  | call (op : S.Op) (k : Except ε (S.Res op) → Program S ε α)

namespace Program

/-- Sequential composition; an exception skips the continuation. -/
protected def bind (p : Program S ε α) (f : α → Program S ε β) :
    Program S ε β :=
  match p with
  | ret a => f a
  | raise e => raise e
  | call op k => call op fun x => (k x).bind f

instance : Monad (Program S ε) where
  pure := ret
  bind := Program.bind

/-- One call, whose exception is raised in the caller. -/
def perform (op : S.Op) : Program S ε (S.Res op) :=
  call op fun
    | .ok a => ret a
    | .error e => raise e

/-- Run a program and hand its outcome, value or exception, to the caller.
This is the `try` of a `try`/`except`/`else` statement. -/
def attempt : Program S ε α → Program S ε (Except ε α)
  | ret a => ret (.ok a)
  | raise e => ret (.error e)
  | call op k => call op fun x => (k x).attempt

/-- Replace every call by a program over another signature. -/
def interp (impl : (op : S.Op) → Program T ε (S.Res op)) :
    Program S ε α → Program T ε α
  | ret a => ret a
  | raise e => raise e
  | call op k => (impl op).attempt.bind fun x => (k x).interp impl

@[simp] theorem pure_eq (a : α) : (pure a : Program S ε α) = ret a := rfl

@[simp] theorem bind_eq (p : Program S ε α) (f : α → Program S ε β) :
    p >>= f = p.bind f := rfl

@[simp] theorem ret_bind (a : α) (f : α → Program S ε β) :
    (ret a : Program S ε α).bind f = f a := rfl

@[simp] theorem raise_bind (e : ε) (f : α → Program S ε β) :
    (raise e : Program S ε α).bind f = raise e := rfl

@[simp] theorem call_bind (op : S.Op)
    (k : Except ε (S.Res op) → Program S ε α) (f : α → Program S ε β) :
    (call op k).bind f = call op fun x => (k x).bind f := rfl

@[simp] theorem bind_ret (p : Program S ε α) : p.bind ret = p := by
  induction p with
  | ret a => rfl
  | raise e => rfl
  | call op k ih =>
      simp only [call_bind]
      congr
      funext x
      exact ih x

theorem bind_assoc (p : Program S ε α) (f : α → Program S ε β)
    (g : β → Program S ε γ) :
    (p.bind f).bind g = p.bind fun a => (f a).bind g := by
  induction p with
  | ret a => rfl
  | raise e => rfl
  | call op k ih =>
      simp only [call_bind]
      congr
      funext x
      exact ih x

@[simp] theorem interp_ret
    (impl : (op : S.Op) → Program T ε (S.Res op)) (a : α) :
    (ret a : Program S ε α).interp impl = ret a := rfl

@[simp] theorem interp_raise
    (impl : (op : S.Op) → Program T ε (S.Res op)) (e : ε) :
    (raise e : Program S ε α).interp impl = raise e := rfl

@[simp] theorem interp_call
    (impl : (op : S.Op) → Program T ε (S.Res op)) (op : S.Op)
    (k : Except ε (S.Res op) → Program S ε α) :
    (call op k).interp impl =
      (impl op).attempt.bind fun x => (k x).interp impl := rfl

theorem interp_bind (impl : (op : S.Op) → Program T ε (S.Res op))
    (p : Program S ε α) (f : α → Program S ε β) :
    (p.bind f).interp impl =
      (p.interp impl).bind fun a => (f a).interp impl := by
  induction p with
  | ret a => rfl
  | raise e => rfl
  | call op k ih =>
      simp only [call_bind, interp_call, bind_assoc]
      congr
      funext x
      exact ih x

theorem attempt_bind_rethrow (p : Program S ε α) :
    (p.attempt.bind fun
      | .ok a => ret a
      | .error e => raise e) = p := by
  induction p with
  | ret a => rfl
  | raise e => rfl
  | call op k ih =>
      simp only [attempt, call_bind]
      congr
      funext x
      exact ih x

@[simp] theorem attempt_ret (a : α) :
    (ret a : Program S ε α).attempt = ret (.ok a) := rfl

@[simp] theorem attempt_raise (e : ε) :
    (raise e : Program S ε α).attempt = ret (.error e) := rfl

theorem attempt_bind (p : Program S ε α) (f : α → Program S ε β) :
    (p.bind f).attempt = p.attempt.bind fun
      | .ok a => (f a).attempt
      | .error e => ret (.error e) := by
  induction p with
  | ret a => rfl
  | raise e => rfl
  | call op k ih =>
      simp only [attempt, call_bind]
      congr
      funext x
      exact ih x

@[simp] theorem interp_perform
    (impl : (op : S.Op) → Program T ε (S.Res op)) (op : S.Op) :
    (perform op : Program S ε (S.Res op)).interp impl = impl op := by
  rw [perform, interp_call]
  refine Eq.trans ?_ (attempt_bind_rethrow (impl op))
  congr
  funext x
  cases x <;> rfl

theorem interp_attempt (impl : (op : S.Op) → Program T ε (S.Res op))
    (p : Program S ε α) :
    p.attempt.interp impl = (p.interp impl).attempt := by
  induction p with
  | ret a => rfl
  | raise e => rfl
  | call op k ih =>
      simp only [attempt, interp_call, attempt_bind]
      rw [show (impl op).attempt.attempt =
        (impl op).attempt.bind fun x => ret (.ok x) from ?_, bind_assoc]
      · congr
        funext x
        exact ih x
      · induction impl op with
        | ret a => rfl
        | raise e => rfl
        | call op' k' ih' =>
            simp only [attempt, call_bind]
            congr
            funext x
            exact ih' x

end Program

end Effects
