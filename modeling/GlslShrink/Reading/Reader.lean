import GlslShrink.Text.Lines

/-!
Readers of text. A reader either reads a value off the front of its text and leaves the rest, or
gets stuck at some place further on. Of two alternatives that both get stuck, the one that came
further decides where the failure is reported.

Repetition and recursion go through `fix`, which bounds the depth by the length of the text: since
every round reads at least one character, the bound is never met.
-/

set_option autoImplicit false

namespace GlslShrink

/-- What a reader makes of its text; `place` is the text that was left where it got stuck. -/
inductive Outcome (α : Type) where
  | read (value : α) (rest : List Char)
  | stuck (place : List Char)
  deriving DecidableEq, Repr

def Reader (α : Type) : Type :=
  List Char → Outcome α

namespace Reader

variable {α β : Type}

/-- Whether the first text is shorter than the second. -/
def shorter : List Char → List Char → Bool
  | _, [] => false
  | [], _ :: _ => true
  | _ :: a, _ :: b => shorter a b

/-- The place with less text left, the first one if both have the same. -/
def furthest (a b : List Char) : List Char :=
  if shorter b a then b else a

instance : Monad Reader where
  pure a := fun text => .read a text
  bind p f := fun text =>
    match p text with
    | .read a rest => f a rest
    | .stuck place => .stuck place

/-- Is stuck at once. -/
def refuse : Reader α := fun text =>
  .stuck text

/-- Reads as `p` does, and where `p` gets stuck as `q` does. -/
def orElse (p q : Reader α) : Reader α := fun text =>
  match p text with
  | .read a rest => .read a rest
  | .stuck place =>
    match q text with
    | .read a rest => .read a rest
    | .stuck place' => .stuck (furthest place place')

instance : OrElse (Reader α) where
  orElse p q := orElse p (q ())

/-- Goes on with `next` after what `p` reads; where `p` gets stuck, `otherwise` reads instead and
the failure is forgotten. -/
def branch (p : Reader α) (next : α → Reader β) (otherwise : Reader β) : Reader β := fun text =>
  match p text with
  | .read a rest => next a rest
  | .stuck _ => otherwise text

/-- Reads `p` if possible and nothing otherwise. -/
def optional (p : Reader α) : Reader (Option α) :=
  p.branch (fun a => pure (some a)) (pure none)

/-- Reads as `p` does, but gets stuck at the start if the value does not pass the test. -/
def guarded (p : Reader α) (test : α → Bool) : Reader α := fun text =>
  match p text with
  | .read a rest => if test a then .read a rest else .stuck text
  | .stuck place => .stuck place

/-- Reads what `p` reads and gives the text back. -/
def ahead (p : Reader α) : Reader α := fun text =>
  match p text with
  | .read a _ => .read a text
  | .stuck place => .stuck place

/-- Reads nothing, and is stuck where the next character passes the test. -/
def notNext (test : Char → Bool) : Reader Unit := fun text =>
  match text with
  | c :: _ => if test c then .stuck text else .read () text
  | [] => .read () text

/-- Reads one character that passes the test. -/
def satisfying (test : Char → Bool) : Reader Char := fun text =>
  match text with
  | c :: rest => if test c then .read c rest else .stuck text
  | [] => .stuck text

def exactly (c : Char) : Reader Char :=
  satisfying (· == c)

/-- Reads the characters up to the first one that fails the test. -/
def run (test : Char → Bool) : Reader (List Char) := fun text =>
  .read (text.takeWhile test) (text.dropWhile test)

/-- Reads one or more characters that pass the test. -/
def run1 (test : Char → Bool) : Reader (List Char) := do
  let first ← satisfying test
  let others ← run test
  return first :: others

section Recursion

variable {ι : Type}

/-- Unfolds a recursive family of readers to the given depth. -/
def unfolding (family : (ι → Reader α) → ι → Reader α) : Nat → ι → Reader α
  | 0 => fun _ text => .stuck text
  | depth + 1 => family (unfolding family depth)

/-- The family of readers that `family` describes in terms of itself. -/
def fix (family : (ι → Reader α) → ι → Reader α) (i : ι) : Reader α := fun text =>
  unfolding family (text.length + 1) i text

end Recursion

/-- Reads `p` as often as possible. -/
def many (p : Reader α) : Reader (List α) :=
  fix (fun more _ => p.branch (fun a => return a :: (← more ())) (pure [])) ()

/-- Reads `p` once or more. -/
def many1 (p : Reader α) : Reader (List α) := do
  let first ← p
  let others ← many p
  return first :: others

/-- Reads one or more `p` with `separator` between them. -/
def separated1 (separator : Reader β) (p : Reader α) : Reader (List α) := do
  let first ← p
  let others ← many (do let _ ← separator; p)
  return first :: others

/-- Reads any number of `p` with `separator` between them. -/
def separated (separator : Reader β) (p : Reader α) : Reader (List α) :=
  p.branch (fun first => return first :: (← many (do let _ ← separator; p))) (pure [])

/-- Reads `p` over and over until `close` reads. -/
def manyUntil (p : Reader α) (close : Reader β) : Reader (List α) :=
  fix (fun more _ => close.branch (fun _ => pure []) (do
    let first ← p
    let others ← more ()
    return first :: others)) ()

/-- Lets `step` grow a value until it gives no larger one. -/
def extend (step : α → Reader (Option α)) : α → Reader α :=
  fix (fun more a => do
    match ← step a with
    | some larger => more larger
    | none => pure a)

end Reader

end GlslShrink
