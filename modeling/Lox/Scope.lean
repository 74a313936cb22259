import Lox.Name

/-!
# Scopes

A scope binds names to values and may have a scope around it.  All scopes live in one heap and are
known by their numbers, so that a scope can be shared and outlive the block that made it.  A heap
only grows, and a scope is made inside one that is there already; so a chain of enclosing scopes
goes to smaller and smaller numbers and ends.
-/

namespace Lox

variable {α : Type}

/-- The names bound in one place, in the order in which they were first bound. -/
structure Scope (α : Type) where
  enclosing : Option Nat
  bindings : List (Name × α)
deriving Inhabited

namespace Scope

/-- The value of a name in this scope alone. -/
def find? (s : Scope α) (name : Name) : Option α := s.bindings.lookup name

/-- Whether a name is bound in this scope. -/
def defines (s : Scope α) (name : Name) : Bool := (s.find? name).isSome

/-- Binds a name in a list of bindings; a name that is there keeps its place. -/
def bind (name : Name) (v : α) : List (Name × α) → List (Name × α)
  | [] => [(name, v)]
  | (other, old) :: rest =>
    if other = name then (name, v) :: rest else (other, old) :: bind name v rest

/-- Binds a name. -/
def put (s : Scope α) (name : Name) (v : α) : Scope α :=
  { s with bindings := bind name v s.bindings }

end Scope

/-- All scopes made so far; a scope's number is its place. -/
structure Heap (α : Type) where
  scopes : Array (Scope α)
deriving Inhabited

namespace Heap

/-- No scopes. -/
def empty : Heap α := ⟨#[]⟩

/-- How many scopes there are, which is the number of the next one. -/
def size (h : Heap α) : Nat := h.scopes.size

/-- Makes a scope without names; its number is the size of the heap before. -/
def push (h : Heap α) (enclosing : Option Nat) : Heap α := ⟨h.scopes.push ⟨enclosing, []⟩⟩

/-- A scope by its number. -/
def get? (h : Heap α) (id : Nat) : Option (Scope α) := h.scopes[id]?

/-- Binds a name in a scope; a name that is bound there gets the new value. -/
def define (h : Heap α) (id : Nat) (name : Name) (v : α) : Heap α :=
  ⟨h.scopes.modify id fun s => s.put name v⟩

/-- Binds names one after another. -/
def defineAll (h : Heap α) (id : Nat) (bindings : List (Name × α)) : Heap α :=
  bindings.foldl (fun h (name, v) => h.define id name v) h

/-- Follows enclosing scopes to one that binds a name. -/
def resolveFrom (h : Heap α) (name : Name) : Nat → Nat → Option Nat
  | 0, _ => none
  | fuel + 1, id =>
    match h.get? id with
    | none => none
    | some s =>
      if s.defines name then some id
      else
        match s.enclosing with
        | none => none
        | some outer => resolveFrom h name fuel outer

/-- The innermost scope that binds a name, seen from a scope. -/
def resolve? (h : Heap α) (id : Nat) (name : Name) : Option Nat :=
  h.resolveFrom name (id + 1) id

/-- The value of a name, seen from a scope. -/
def lookup? (h : Heap α) (id : Nat) (name : Name) : Option α :=
  match h.resolve? id name with
  | none => none
  | some found =>
    match h.get? found with
    | none => none
    | some s => s.find? name

/-- Gives a name a new value where it is bound, seen from a scope. -/
def assign? (h : Heap α) (id : Nat) (name : Name) (v : α) : Option (Heap α) :=
  match h.resolve? id name with
  | none => none
  | some found => some (h.define found name v)

/-- Counts enclosing scopes. -/
def depthFrom (h : Heap α) : Nat → Nat → Nat
  | 0, _ => 0
  | fuel + 1, id =>
    match h.get? id with
    | none => 0
    | some s =>
      match s.enclosing with
      | none => 0
      | some outer => depthFrom h fuel outer + 1

/-- How many scopes are around a scope. -/
def depth (h : Heap α) (id : Nat) : Nat := h.depthFrom (id + 1) id

end Heap

end Lox
