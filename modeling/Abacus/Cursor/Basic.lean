/-!
# Cursor

A place in a sequence that is read item by item. An item is pulled from the
source the first time it is looked at and held from then on. The anchor is
where the piece being collected began, and as far as that the cursor can go
back: `view` is the piece, `cut` hands it out.

Operations return the cursor they leave behind. Positions are plain numbers;
that `anchor ≤ pos ≤ held.size` is kept by every operation, not by the type.
-/

namespace Abacus

structure Cursor (α : Type) where
  held : Array α
  /-- What can still be pulled. -/
  source : List α
  pos : Nat
  anchor : Nat
deriving DecidableEq

namespace Cursor

variable {α : Type}

def ofList (items : List α) : Cursor α := ⟨#[], items, 0, 0⟩

/-- The items from the cursor on, held or not. -/
def unread (c : Cursor α) : List α := c.held.toList.drop c.pos ++ c.source

def remaining (c : Cursor α) : Nat := (c.held.size - c.pos) + c.source.length

/-- Hold the item at the cursor, if there is one. -/
def fill (c : Cursor α) : Cursor α :=
  if c.pos < c.held.size then c
  else match c.source with
    | [] => c
    | x :: rest => { c with held := c.held.push x, source := rest }

def peek (c : Cursor α) : Option α × Cursor α :=
  let c := c.fill
  (c.held[c.pos]?, c)

def acceptIf (p : α → Bool) (c : Cursor α) : Option α × Cursor α :=
  match c.peek with
  | (none, c) => (none, c)
  | (some x, c) => if p x then (some x, { c with pos := c.pos + 1 }) else (none, c)

def next (c : Cursor α) : Option α × Cursor α := c.acceptIf fun _ => true

def mark (c : Cursor α) : Nat := c.pos

/-- Go to a mark. Refused before the anchor and past what is held. -/
def restore (mark : Nat) (c : Cursor α) : Bool × Cursor α :=
  if c.anchor ≤ mark ∧ mark ≤ c.held.size then (true, { c with pos := mark }) else (false, c)

def view (c : Cursor α) : List α := (c.held.extract c.anchor c.pos).toList

def discard (c : Cursor α) : Cursor α := { c with anchor := c.pos }

/-- Hand out the piece since the anchor and begin a new one. -/
def cut (c : Cursor α) : List α × Cursor α := (c.view, c.discard)

def read : Nat → Cursor α → List α × Cursor α
  | 0, c => ([], c)
  | n + 1, c =>
    match c.next with
    | (none, c) => ([], c)
    | (some x, c) => let (xs, c) := read n c; (x :: xs, c)

def readAll (c : Cursor α) : List α × Cursor α := c.read c.remaining

theorem remaining_fill_le (c : Cursor α) : c.fill.remaining ≤ c.remaining := by
  unfold fill
  split
  · exact Nat.le_refl _
  · split
    · exact Nat.le_refl _
    · next hs => simp only [remaining, hs, Array.size_push, List.length_cons]; omega

theorem remaining_acceptIf {p : α → Bool} {c d : Cursor α} {x : α}
    (h : c.acceptIf p = (some x, d)) : d.remaining < c.remaining := by
  refine Nat.lt_of_lt_of_le ?_ (remaining_fill_le c)
  simp only [acceptIf, peek] at h
  split at h
  · cases h
  · next y e heq =>
    obtain ⟨hy, rfl⟩ := Prod.mk.inj heq
    split at h
    · cases h
      have := (Array.getElem?_eq_some_iff.mp hy).1
      simp only [remaining]
      omega
    · cases h

def skipWhile (p : α → Bool) (c : Cursor α) : Cursor α :=
  match _h : c.acceptIf p with
  | (none, d) => d
  | (some _, d) => d.skipWhile p
termination_by c.remaining
decreasing_by exact remaining_acceptIf _h

/-- Step over a run of items; true if there was one. -/
def skipRun (p : α → Bool) (c : Cursor α) : Bool × Cursor α :=
  let start := c.pos
  let d := c.skipWhile p
  (start < d.pos, d)

section Sets

variable [DecidableEq α]

def accept (item : α) (c : Cursor α) : Option α × Cursor α := c.acceptIf (· = item)

def acceptAny (set : List α) (c : Cursor α) : Option α × Cursor α := c.acceptIf (· ∈ set)

def skipAll (set : List α) (c : Cursor α) : Bool × Cursor α := c.skipRun (· ∈ set)

def skipUntil (set : List α) (c : Cursor α) : Bool × Cursor α := c.skipRun (· ∉ set)

def acceptEach : List α → Cursor α → Bool × Cursor α
  | [], c => (true, c)
  | item :: items, c =>
    match c.accept item with
    | (none, c) => (false, c)
    | (some _, c) => c.acceptEach items

/-- Accept all of the items or stay in place. -/
def acceptWord (word : List α) (c : Cursor α) : Bool × Cursor α :=
  let start := c.mark
  match c.acceptEach word with
  | (true, d) => (true, d)
  | (false, d) => (false, (d.restore start).2)

end Sets

end Cursor

end Abacus
