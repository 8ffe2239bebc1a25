import GlslShrink.Naming.NameSet
import GlslShrink.Printing.Render
import GlslShrink.Reading.Source

/-!
The pair of shaders that is compiled together: a vertex and a fragment stage, and free text that
steps can attach.
-/

set_option autoImplicit false

namespace GlslShrink

inductive Stage where
  | vertex
  | fragment
  deriving DecidableEq, Repr

namespace Stage

def name : Stage → String
  | vertex => "vertex"
  | fragment => "fragment"

/-- What the source of a stage is read as. -/
def startRule : Stage → StartRule
  | vertex => .vertexShader
  | fragment => .fragmentShader

end Stage

structure Program where
  vertex : Node
  fragment : Node
  metadata : NameMap String := []

namespace Program

def tree (program : Program) : Stage → Node
  | .vertex => program.vertex
  | .fragment => program.fragment

def setTree (program : Program) (stage : Stage) (tree : Node) : Program :=
  match stage with
  | .vertex => { program with vertex := tree }
  | .fragment => { program with fragment := tree }

/-- The source text of a stage. -/
def render (program : Program) (stage : Stage) (separator : String) : String :=
  (program.tree stage).render separator

@[simp]
theorem tree_setTree_self (program : Program) (stage : Stage) (tree : Node) :
    (program.setTree stage tree).tree stage = tree := by
  cases stage <;> rfl

theorem tree_setTree_of_ne {program : Program} {stage other : Stage} {tree : Node}
    (h : other ≠ stage) : (program.setTree stage tree).tree other = program.tree other := by
  cases stage <;> cases other <;> simp_all [Program.tree, setTree]

end Program

end GlslShrink
