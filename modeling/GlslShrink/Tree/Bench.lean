import GlslShrink.Tree.Node

/-!
Building trees by hand. A bench holds references to nodes: a new node gets a number of its own,
changing a node keeps its number but gives another reference, and a reference can be taken again. A
table attaches values to nodes by their numbers, so what is attached to a node is still found after
the node has been changed.
-/

set_option autoImplicit false

namespace GlslShrink

/-- A node on a bench. Two references with one number are the same reference. -/
structure Reference where
  number : Nat
  node : Node

namespace Reference

def same (a b : Reference) : Bool :=
  a.number == b.number

/-- Whether two references are to the same node, changed or not. -/
def sameNode (a b : Reference) : Bool :=
  a.node.mark.id == b.node.mark.id

end Reference

/-- The references in the order in which they were made. -/
structure Bench where
  references : List Reference := []

namespace Bench

def get? (bench : Bench) (i : Nat) : Option Reference :=
  bench.references[i]?

/-- Puts a reference on the bench. -/
def put (bench : Bench) (reference : Reference) : Bench :=
  ⟨bench.references ++ [reference]⟩

/-- Makes a node with a number of its own. -/
def make (bench : Bench) (tag : Tag) (value : String) (qualifiers : List String)
    (slots : List (Slot Node)) : Reference :=
  let number := bench.references.length
  ⟨number, { Node.new tag value qualifiers slots with mark := { id := some number } }⟩

/-- A new reference to a changed node. -/
def change (bench : Bench) (node : Node) : Reference :=
  ⟨bench.references.length, node⟩

/-- The positions of the references to the same node. -/
def positionsOf (bench : Bench) (reference : Reference) : List Nat :=
  (List.range bench.references.length).filter (fun i =>
    (bench.get? i).any (fun other => other.sameNode reference))

end Bench

/-- Values attached to nodes by their numbers. -/
structure NodeTable (α : Type) where
  entries : List (Option Nat × α) := []

namespace NodeTable

variable {α : Type}

def find? (table : NodeTable α) (node : Node) : Option α :=
  table.entries.lookup node.mark.id

def contains (table : NodeTable α) (node : Node) : Bool :=
  (table.find? node).isSome

/-- Attaches a value to a node in place of any other. -/
def insert (table : NodeTable α) (node : Node) (value : α) : NodeTable α :=
  ⟨(node.mark.id, value) :: table.entries.filter (fun entry => entry.1 != node.mark.id)⟩

def size (table : NodeTable α) : Nat :=
  table.entries.length

def isEmpty (table : NodeTable α) : Bool :=
  table.entries.isEmpty

end NodeTable

end GlslShrink
